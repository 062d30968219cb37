import Amarian.Consensus.Rules
import Amarian.Wallet.CoinSelection
import Amarian.Wallet.Keys

/-
  Building a payment and signing it.

  Key definitions include:
    * `TxBuilder`
    * `TxBuilder.build`
    * `TxBuilder.sign`

  Key theorems include:
    * `TxBuilder.build_eq_some`
    * `TxBuilder.sign_eq_some`
-/

------------------------------------------------------------
-- The Builder
------------------------------------------------------------

namespace Amarian

namespace Wallet

structure UnsignedTx where
  tx : Transaction
  spentCoins : List Coin
  inputPrivateKeys : List ByteVec
  inputSchemes : List UInt16

structure SignedTx where
  tx : Transaction
  txid : Hash256
  fee : Int64

def schemeIdFromName
    (name : String) : UInt16 :=
  if name = "schnorr-secp256k1" then
    schemeSchnorrSecp256k1
  else if name = "ml-dsa-44" then
    schemeMlDsa44
  else if name = "slh-dsa-sha2-128s" then
    schemeSlhDsaSha2128s
  else
    0

structure TxBuilder where
  seed : MasterSeed
  schemeName : String
  account : UInt32
  recipients : List (Lock × Int64)
  feeRate : Int64
  chainId : Hash256
  utxos : List UtxoEntry

/- One key, and one signature under it. -/
def singleKeyCondition
    (scheme : UInt16)
    (bytes : ByteVec) : SpendCondition :=
  { version := 1
    threshold := 1
    keys := [{ scheme, bytes }] }

/- The lock of a key that could not be derived. -/
def zeroLock : Lock :=
  { version := 1
    program := List.replicate 32 0 }

namespace TxBuilder

section Building

variable (c : Crypto) (sort : ValueSort)
variable (builder : TxBuilder)

def target : Int64 :=
  builder.recipients.foldl
    (fun target recipient => target + recipient.2) 0

def selection : CoinSelection :=
  selectCoins sort builder.utxos builder.target
    builder.feeRate

def inputFor
    (entry : UtxoEntry) : TxInput :=
  { outpoint := entry.outpoint
    sequence := 0 }

/- The key that an input is signed with. -/
def privateKeyFor
    (entry : UtxoEntry) : ByteVec :=
  deriveSecp256k1Key c builder.seed
    (if entry.accountId = 0 then
      builder.account
    else
      entry.accountId)
    entry.derivationIndex

def recipientOutput
    (recipient : Lock × Int64) : TxOutput :=
  { amount := recipient.2
    lock := recipient.1 }

/- What is left over goes to the lock of the first coin. -/
def changeOutputs
    (change : Int64) : List TxOutput :=
  if change > 0 ∧ change ≥ dustThreshold then
    [{ amount := change
       lock :=
         match builder.utxos with
         | entry :: _ => entry.coin.output.lock
         | [] => zeroLock }]
  else
    []

def assemble
    (selected : CoinSelection) : UnsignedTx :=
  { tx :=
      { version := 1
        inputs := selected.inputs.map inputFor
        outputs :=
          builder.recipients.map recipientOutput ++
            builder.changeOutputs selected.change
        locktime := 0
        witnesses := []
        coinbaseData := [] }
    spentCoins := selected.inputs.map UtxoEntry.coin
    inputPrivateKeys :=
      selected.inputs.map (builder.privateKeyFor c)
    inputSchemes :=
      selected.inputs.map fun _ =>
        schemeIdFromName builder.schemeName }

def build : Option UnsignedTx :=
  if builder.recipients.isEmpty ||
      builder.utxos.isEmpty then
    none
  else if !(builder.selection sort).success then
    none
  else
    some (builder.assemble c (builder.selection sort))

end Building

------------------------------------------------------------
-- Signatures
------------------------------------------------------------

section Signing

variable (c : Crypto) (signer : Signer)

def buildSpendCondition
    (privateKey : ByteVec)
    (scheme : UInt16) : SpendCondition :=
  singleKeyCondition scheme
    (if scheme = schemeSchnorrSecp256k1 then
      match generateSchnorrKey signer privateKey with
      | some pair => pair.publicKey
      | none => []
    else
      privateKey)

def signInput
    (chainId : Hash256)
    (tx : Transaction)
    (midstates : SigHashMidstates)
    (inputIndex : Nat)
    (spentAmount : Int64)
    (condition : SpendCondition)
    (privateKey : ByteVec)
    (scheme : UInt16) : Option ByteVec :=
  let sighash :=
    signatureHash c chainId tx midstates
      (UInt32.ofNat inputIndex) spentAmount condition
  if scheme = schemeSchnorrSecp256k1 then
    signSchnorr signer privateKey sighash
  else if scheme = schemeMlDsa44 then
    signMldsa44 signer privateKey sighash
  else
    none

def signInputs
    (chainId : Hash256)
    (tx : Transaction)
    (midstates : SigHashMidstates) :
    Nat → List Coin → List ByteVec → List UInt16 →
      Option (List Witness)
  | index, coin :: coins, key :: keys,
      scheme :: schemes => do
      let condition := buildSpendCondition signer key scheme
      let bytes ← signInput c signer chainId tx midstates
        index coin.output.amount condition key scheme
      let rest ← signInputs chainId tx midstates (index + 1)
        coins keys schemes
      some ({ condition, signatures := [{ scheme, bytes }] } ::
        rest)
  | _, _, _, _ => some []

def sumOf
    (amounts : List Int64) : Int64 :=
  amounts.foldl (fun total amount => total + amount) 0

def sign
    (builder : TxBuilder)
    (utx : UnsignedTx) : Option SignedTx :=
  if utx.tx.inputs.length ≠ utx.spentCoins.length then
    none
  else if utx.tx.inputs.length ≠
      utx.inputPrivateKeys.length then
    none
  else do
    let witnesses ← signInputs c signer builder.chainId
      utx.tx (computeSigHashMidstates c utx.tx) 0
      utx.spentCoins utx.inputPrivateKeys utx.inputSchemes
    let tx := { utx.tx with witnesses := witnesses }
    some
      { tx := tx
        txid := tx.txid c
        fee :=
          sumOf (utx.spentCoins.map
              fun coin => coin.output.amount) -
            sumOf (tx.outputs.map TxOutput.amount) }

end Signing

------------------------------------------------------------
-- What Comes Out
------------------------------------------------------------

section Outcome

variable {c : Crypto} {sort : ValueSort} {signer : Signer}
variable {builder : TxBuilder}

theorem build_eq_some
    {utx : UnsignedTx} :
    builder.build c sort = some utx ↔
      builder.recipients ≠ [] ∧
        builder.utxos ≠ [] ∧
        (builder.selection sort).success = true ∧
        utx =
          builder.assemble c (builder.selection sort) := by
  unfold build
  constructor
  · intro hBuild
    split at hBuild
    · cases hBuild
    rename_i hSome
    split at hBuild
    · cases hBuild
    rename_i hSuccess
    cases hBuild
    rw [Bool.or_eq_true, not_or, List.isEmpty_iff,
      List.isEmpty_iff] at hSome
    rw [Bool.not_eq_true, Bool.not_eq_false'] at hSuccess
    exact ⟨hSome.1, hSome.2, hSuccess, rfl⟩
  · rintro ⟨hRecipients, hUtxos, hSuccess, rfl⟩
    rw [if_neg, if_neg]
    · rw [hSuccess]
      decide
    · rw [Bool.or_eq_true, not_or, List.isEmpty_iff,
        List.isEmpty_iff]
      exact ⟨hRecipients, hUtxos⟩

theorem sign_eq_some
    {selected : CoinSelection}
    {signed : SignedTx} :
    let utx := builder.assemble c selected
    builder.sign c signer utx = some signed ↔
      ∃ witnesses,
        signInputs c signer builder.chainId utx.tx
            (computeSigHashMidstates c utx.tx) 0
            utx.spentCoins utx.inputPrivateKeys
            utx.inputSchemes =
          some witnesses ∧
        signed =
          { tx := { utx.tx with witnesses := witnesses }
            txid := utx.tx.txid c
            fee :=
              sumOf (utx.spentCoins.map
                  fun coin => coin.output.amount) -
                sumOf (utx.tx.outputs.map
                  TxOutput.amount) } := by
  intro utx
  have hCoins :
      ¬(utx.tx.inputs.length ≠ utx.spentCoins.length) := by
    simp [utx, assemble]
  have hKeys :
      ¬(utx.tx.inputs.length ≠
        utx.inputPrivateKeys.length) := by
    simp [utx, assemble]
  rw [sign, if_neg hCoins, if_neg hKeys]
  constructor
  · intro hSign
    rcases Option.bind_eq_some_iff.mp hSign with
      ⟨witnesses, hWitnesses, hSigned⟩
    cases hSigned
    exact ⟨witnesses, hWitnesses, rfl⟩
  · rintro ⟨witnesses, hWitnesses, rfl⟩
    rw [hWitnesses]
    rfl

end Outcome

end TxBuilder

end Wallet

end Amarian
