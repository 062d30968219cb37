import Amarian.Crypto.Hash

/-
  Transactions: locks, spend conditions, witnesses, inputs
  and outputs, with the encodings their identifiers hash.

  Key definitions include:
    * `OutPoint`
    * `Lock`
    * `SpendCondition`
    * `Witness`
    * `TxOutput`
    * `Coin`
    * `TxLimits`
    * `Transaction`
    * `Transaction.isCoinbase`
    * `Transaction.txid`
    * `Transaction.wtxid`
    * `Transaction.weight`
-/

------------------------------------------------------------
-- Outpoints And Locks
------------------------------------------------------------

namespace Amarian

/- An output, named by its transaction and its place. -/
structure OutPoint where
  txid : Hash256
  index : UInt32
deriving DecidableEq

/- The transaction first, then the place. -/
def OutPoint.serialize
    (outpoint : OutPoint) : ByteVec :=
  writeHash256 outpoint.txid ++ writeU32 outpoint.index

/- What has this version can never be spent. -/
def lockVersionUnspendable : UInt8 := 0

/- The program is the hash of a condition. -/
def lockVersionConditionCommitment : UInt8 := 1

/- What has to be met to spend an output. -/
structure Lock where
  version : UInt8
  program : ByteVec
deriving DecidableEq

namespace Lock

/- Such outputs are not stored. -/
def isUnspendable
    (lock : Lock) : Bool :=
  lock.version == lockVersionUnspendable

/- The version, then the program with its length. -/
def serialize
    (lock : Lock) : ByteVec :=
  writeU8 lock.version ++ writeByteString lock.program

end Lock

------------------------------------------------------------
-- Conditions And Witnesses
------------------------------------------------------------

/- No condition may have this version. -/
def conditionVersionReserved : UInt8 := 0

/- Some of the keys have to sign. -/
def conditionVersionThreshold : UInt8 := 1

/- The bytes mean something under their scheme only. -/
structure PublicKey where
  scheme : UInt16
  bytes : ByteVec
deriving DecidableEq

namespace PublicKey

/- The member-wise order: scheme first, then the bytes. -/
def less
    (left right : PublicKey) : Bool :=
  if left.scheme = right.scheme then
    bytesLess left.bytes right.bytes
  else
    decide (left.scheme < right.scheme)

/- The scheme, then the bytes. -/
def serialize
    (key : PublicKey) : ByteVec :=
  writeU16 key.scheme ++ writeByteString key.bytes

end PublicKey

/- A signature names its scheme as well. -/
structure Signature where
  scheme : UInt16
  bytes : ByteVec
deriving DecidableEq

/- The scheme, then the bytes. -/
def Signature.serialize
    (signature : Signature) : ByteVec :=
  writeU16 signature.scheme ++
    writeByteString signature.bytes

/- How many of which keys have to sign. -/
structure SpendCondition where
  version : UInt8
  threshold : UInt8
  keys : List PublicKey
deriving DecidableEq

/- The version, the threshold, then the keys. -/
def SpendCondition.serialize
    (condition : SpendCondition) : ByteVec :=
  writeU8 condition.version ++
    writeU8 condition.threshold ++
    writeList PublicKey.serialize condition.keys

/- The condition is shown together with the signatures. -/
structure Witness where
  condition : SpendCondition
  signatures : List Signature
deriving DecidableEq

/- The condition, then the signatures. -/
def Witness.serialize
    (witness : Witness) : ByteVec :=
  witness.condition.serialize ++
    writeList Signature.serialize witness.signatures

------------------------------------------------------------
-- Inputs, Outputs And Coins
------------------------------------------------------------

/- What is spent; a coinbase has its height as sequence. -/
structure TxInput where
  outpoint : OutPoint
  sequence : UInt32
deriving DecidableEq

/- The outpoint, then the sequence. -/
def TxInput.serialize
    (input : TxInput) : ByteVec :=
  input.outpoint.serialize ++ writeU32 input.sequence

/- An amount and who may spend it. -/
structure TxOutput where
  amount : Int64
  lock : Lock
deriving DecidableEq

/- The amount, then the lock. -/
def TxOutput.serialize
    (output : TxOutput) : ByteVec :=
  writeI64 output.amount ++ output.lock.serialize

/- An unspent output, and what a later spend must know of it. -/
structure Coin where
  output : TxOutput
  height : UInt32
  isCoinbase : Bool
deriving DecidableEq

------------------------------------------------------------
-- Transactions
------------------------------------------------------------

/- The place that no output has. -/
def coinbaseOutpointIndex : UInt32 := 0xFFFFFFFF

/- Bytes outside the witnesses count four times. -/
def witnessScaleFactor : Nat := 4

/- Bounds on decoding one transaction. -/
structure TxLimits where
  maxInputs : Nat
  maxOutputs : Nat
  maxWitnesses : Nat
  maxLockProgramSize : Nat
  maxKeys : Nat
  maxKeySize : Nat
  maxSignatures : Nat
  maxSignatureSize : Nat
  maxCoinbaseDataSize : Nat
deriving DecidableEq

/- Only a coinbase has data of its own. -/
structure Transaction where
  version : UInt32
  inputs : List TxInput
  outputs : List TxOutput
  locktime : UInt32
  witnesses : List Witness
  coinbaseData : ByteVec
deriving DecidableEq

/- The sentinel outpoint no real output can have. -/
def OutPoint.isNull
    (outpoint : OutPoint) : Bool :=
  outpoint.txid.isZero &&
    outpoint.index == coinbaseOutpointIndex

/- Spends nothing, and carries the height. -/
def makeCoinbaseInput
    (height : UInt32) : TxInput :=
  { outpoint :=
      { txid := Bytes32.zero
        index := coinbaseOutpointIndex }
    sequence := height }

namespace Transaction

/- One input, and that input names the sentinel outpoint. -/
def isCoinbase
    (tx : Transaction) : Bool :=
  match tx.inputs with
  | [input] => input.outpoint.isNull
  | _ => false

/- What the identifier is the hash of. -/
def serializeWithoutWitnesses
    (tx : Transaction) : ByteVec :=
  writeU32 tx.version ++
    writeList TxInput.serialize tx.inputs ++
    writeList TxOutput.serialize tx.outputs ++
    writeU32 tx.locktime

/-
  The inputs decide which of the two witness forms follows:
  the coinbase's arbitrary bytes, or the witness list.
-/
def serialize
    (tx : Transaction) : ByteVec :=
  tx.serializeWithoutWitnesses ++
    if tx.isCoinbase then
      writeByteString tx.coinbaseData
    else
      writeList Witness.serialize tx.witnesses

/- The same for every witness. -/
def txid
    (c : Crypto)
    (tx : Transaction) : Hash256 :=
  c.doubleSha256 tx.serializeWithoutWitnesses

/- Covers the witnesses as well. -/
def wtxid
    (c : Crypto)
    (tx : Transaction) : Hash256 :=
  c.doubleSha256 tx.serialize

/- The base four times, and the witnesses once. -/
def weight
    (tx : Transaction) : Nat :=
  let base := tx.serializeWithoutWitnesses.length
  base * witnessScaleFactor + (tx.serialize.length - base)

end Transaction

end Amarian
