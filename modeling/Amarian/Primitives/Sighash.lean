import Amarian.Primitives.Transaction

/-
  The message a signature covers: three midstates over the
  whole transaction and one preimage for each input.

  Key definitions include:
    * `spendConditionCommitment`
    * `computeSigHashMidstates`
    * `signatureHashPreimage`
    * `signatureHash`
-/

------------------------------------------------------------
-- Commitments And Midstates
------------------------------------------------------------

namespace Amarian

/- Signed digests have a tag of their own. -/
def sighashTag : String := "Amarian/SigHash"

/- So have the commitments of locks. -/
def spendConditionTag : String := "Amarian/SpendCondition"

/- The first byte of every preimage under `sighashTag`. -/
inductive SigHashDomain where
  | outpoints
  | sequences
  | outputs
  | input

/- Each preimage starts with what it is about. -/
def SigHashDomain.byte : SigHashDomain → UInt8
  | outpoints => 1
  | sequences => 2
  | outputs => 3
  | input => 4

def beginPreimage
    (domain : SigHashDomain) : ByteVec :=
  writeU8 domain.byte

/- What a lock holds of its condition. -/
def spendConditionCommitment
    (c : Crypto)
    (condition : SpendCondition) : Hash256 :=
  c.taggedHash spendConditionTag condition.serialize

/- Three hashes that all inputs share. -/
structure SigHashMidstates where
  outpoints : Hash256
  sequences : Hash256
  outputs : Hash256

/- Every list commits its own length. -/
def computeSigHashMidstates
    (c : Crypto)
    (tx : Transaction) : SigHashMidstates :=
  { outpoints :=
      c.taggedHash sighashTag
        (beginPreimage .outpoints ++
          writeList (fun input : TxInput =>
            input.outpoint.serialize) tx.inputs)
    sequences :=
      c.taggedHash sighashTag
        (beginPreimage .sequences ++
          writeList (fun input : TxInput =>
            writeU32 input.sequence) tx.inputs)
    outputs :=
      c.taggedHash sighashTag
        (beginPreimage .outputs ++
          writeList TxOutput.serialize tx.outputs) }

------------------------------------------------------------
-- The Signature Hash
------------------------------------------------------------

/- All that a signature of one input covers. -/
def signatureHashPreimage
    (c : Crypto)
    (chainId : Hash256)
    (tx : Transaction)
    (midstates : SigHashMidstates)
    (inputIndex : UInt32)
    (spentAmount : Int64)
    (condition : SpendCondition) : ByteVec :=
  beginPreimage .input ++
    writeHash256 chainId ++
    writeU32 tx.version ++
    writeU32 tx.locktime ++
    writeHash256 midstates.outpoints ++
    writeHash256 midstates.sequences ++
    writeHash256 midstates.outputs ++
    writeU32 inputIndex ++
    writeI64 spentAmount ++
    writeHash256 (spendConditionCommitment c condition)

/- The digest that is signed. -/
def signatureHash
    (c : Crypto)
    (chainId : Hash256)
    (tx : Transaction)
    (midstates : SigHashMidstates)
    (inputIndex : UInt32)
    (spentAmount : Int64)
    (condition : SpendCondition) : Hash256 :=
  c.taggedHash sighashTag
    (signatureHashPreimage c chainId tx midstates inputIndex
      spentAmount condition)

end Amarian
