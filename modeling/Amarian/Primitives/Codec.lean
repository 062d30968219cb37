import Amarian.Primitives.Block
import Amarian.Util.Overflow
import Amarian.Util.Reader

/-
  Reading transactions and blocks back.

  Each decoder follows its `Deserialize` of the source: the
  fields in order, a nested decoder for each nested value,
  and the caller's limit on every count.

  Key definitions include:
    * `Transaction.deserialize`
    * `Transaction.Fits`
    * `Block.deserialize`
    * `Block.Fits`

  Key theorems include:
    * `Transaction.deserialize_canonical`
    * `Block.deserialize_canonical`
-/

------------------------------------------------------------
-- Locks And Outpoints
------------------------------------------------------------

namespace Amarian

open Codec

/- Every outpoint is well formed. -/
def OutPoint.deserialize : Decoder UInt8 OutPoint := do
  let txid ← readHash256
  let index ← readU32
  pure { txid := txid, index := index }

theorem OutPoint.deserialize_canonical :
    Canonical OutPoint.serialize OutPoint.deserialize
      fun _ => True := by
  have hFields :=
    Canonical.pair OutPoint.mk OutPoint.txid OutPoint.index
      (fun _ => rfl) (fun _ _ => rfl) (fun _ _ => rfl)
      readHash256_canonical readU32_canonical
  apply Canonical.congr _ (fun _ _ => rfl) hFields
  intro outpoint
  rw [and_true]

/- The program has a limit on its length. -/
def Lock.deserialize
    (maxProgramSize : Nat) : Decoder UInt8 Lock := do
  let version ← readU8
  let program ← readByteString maxProgramSize
  pure { version := version, program := program }

/- The program is within its limit. -/
def Lock.Fits
    (maxProgramSize : Nat)
    (lock : Lock) : Prop :=
  Sized maxProgramSize lock.program.length

theorem Lock.deserialize_canonical
    (maxProgramSize : Nat) :
    Canonical Lock.serialize
      (Lock.deserialize maxProgramSize)
      (Lock.Fits maxProgramSize) := by
  have hFields :=
    Canonical.pair Lock.mk Lock.version Lock.program
      (fun _ => rfl) (fun _ _ => rfl) (fun _ _ => rfl)
      readU8_canonical
      (readByteString_canonical maxProgramSize)
  apply Canonical.congr _ (fun _ _ => rfl) hFields
  intro lock
  rw [true_and]
  rfl

------------------------------------------------------------
-- Conditions And Witnesses
------------------------------------------------------------

/- A key takes no fewer bytes than this. -/
def PublicKey.minSerializedSize : Nat := 3

/- A signature takes no fewer bytes than this. -/
def Signature.minSerializedSize : Nat := 3

/- Without any key. -/
def SpendCondition.minSerializedSize : Nat := 3

/- Without any signature. -/
def Witness.minSerializedSize : Nat :=
  SpendCondition.minSerializedSize + 1

theorem length_writeCompactSize_pos
    (value : Nat) :
    1 ≤ (writeCompactSize value).length := by
  rw [writeCompactSize_eq, List.length_append]
  exact Nat.le_add_right 1 _

/- The bytes of a key have a limit. -/
def PublicKey.deserialize
    (maxKeySize : Nat) : Decoder UInt8 PublicKey := do
  let scheme ← readU16
  let bytes ← readByteString maxKeySize
  pure { scheme := scheme, bytes := bytes }

/- The bytes are within their limit. -/
def PublicKey.Fits
    (maxKeySize : Nat)
    (key : PublicKey) : Prop :=
  Sized maxKeySize key.bytes.length

theorem PublicKey.deserialize_canonical
    (maxKeySize : Nat) :
    Canonical PublicKey.serialize
      (PublicKey.deserialize maxKeySize)
      (PublicKey.Fits maxKeySize) := by
  have hFields :=
    Canonical.pair PublicKey.mk PublicKey.scheme PublicKey.bytes
      (fun _ => rfl) (fun _ _ => rfl) (fun _ _ => rfl)
      readU16_canonical
      (readByteString_canonical maxKeySize)
  apply Canonical.congr _ (fun _ _ => rfl) hFields
  intro key
  rw [true_and]
  rfl

theorem PublicKey.minSerializedSize_le
    (key : PublicKey) :
    PublicKey.minSerializedSize ≤ key.serialize.length := by
  have hSize := length_writeCompactSize_pos key.bytes.length
  simp only [PublicKey.serialize, writeU16, writeByteString,
    List.length_append, length_littleEndian,
    PublicKey.minSerializedSize]
  omega

/- The bytes of a signature have a limit. -/
def Signature.deserialize
    (maxSignatureSize : Nat) : Decoder UInt8 Signature := do
  let scheme ← readU16
  let bytes ← readByteString maxSignatureSize
  pure { scheme := scheme, bytes := bytes }

/- The bytes are within their limit. -/
def Signature.Fits
    (maxSignatureSize : Nat)
    (signature : Signature) : Prop :=
  Sized maxSignatureSize signature.bytes.length

theorem Signature.deserialize_canonical
    (maxSignatureSize : Nat) :
    Canonical Signature.serialize
      (Signature.deserialize maxSignatureSize)
      (Signature.Fits maxSignatureSize) := by
  have hFields :=
    Canonical.pair Signature.mk Signature.scheme Signature.bytes
      (fun _ => rfl) (fun _ _ => rfl) (fun _ _ => rfl)
      readU16_canonical
      (readByteString_canonical maxSignatureSize)
  apply Canonical.congr _ (fun _ _ => rfl) hFields
  intro signature
  rw [true_and]
  rfl

theorem Signature.minSerializedSize_le
    (signature : Signature) :
    Signature.minSerializedSize ≤
      signature.serialize.length := by
  have hSize :=
    length_writeCompactSize_pos signature.bytes.length
  simp only [Signature.serialize, writeU16, writeByteString,
    List.length_append, length_littleEndian,
    Signature.minSerializedSize]
  omega

/- The number of keys has a limit. -/
def SpendCondition.deserialize
    (maxKeys maxKeySize : Nat) :
    Decoder UInt8 SpendCondition := do
  let version ← readU8
  let threshold ← readU8
  let keys ←
    readList (PublicKey.deserialize maxKeySize) maxKeys
      PublicKey.minSerializedSize
  pure
    { version := version
      threshold := threshold
      keys := keys }

/- Neither the keys nor their number is too large. -/
def SpendCondition.Fits
    (maxKeys maxKeySize : Nat)
    (condition : SpendCondition) : Prop :=
  Sized maxKeys condition.keys.length ∧
    ∀ key ∈ condition.keys, key.Fits maxKeySize

theorem SpendCondition.deserialize_canonical
    (maxKeys maxKeySize : Nat) :
    Canonical SpendCondition.serialize
      (SpendCondition.deserialize maxKeys maxKeySize)
      (SpendCondition.Fits maxKeys maxKeySize) := by
  have hFields :
      Canonical
        (fun condition : SpendCondition =>
          writeU8 condition.version ++
            (writeU8 condition.threshold ++
              (writeList PublicKey.serialize
                condition.keys ++ [])))
        (SpendCondition.deserialize maxKeys maxKeySize)
        (SpendCondition.Fits maxKeys maxKeySize) := by
    apply Canonical.step SpendCondition.version
      readU8_canonical fun _ _ => trivial
    intro version _
    apply Canonical.step SpendCondition.threshold
      readU8_canonical fun _ _ => trivial
    intro threshold _
    apply Canonical.step SpendCondition.keys
      (readList_canonical
        (PublicKey.deserialize_canonical maxKeySize)
        (by decide) PublicKey.minSerializedSize_le maxKeys)
      fun _ hFits => hFits.1.1
    intro keys hKeys
    apply Canonical.done ⟨⟨⟨hKeys, rfl⟩, rfl⟩, rfl⟩
    rintro condition ⟨⟨⟨-, rfl⟩, rfl⟩, rfl⟩
    rfl
  apply Canonical.congr (fun _ => Iff.rfl) _ hFields
  intro condition _
  rw [SpendCondition.serialize, List.append_nil,
    List.append_assoc]

/- The condition, then the signatures. -/
def Witness.deserialize
    (limits : TxLimits) : Decoder UInt8 Witness := do
  let condition ←
    SpendCondition.deserialize limits.maxKeys
      limits.maxKeySize
  let signatures ←
    readList (Signature.deserialize limits.maxSignatureSize)
      limits.maxSignatures Signature.minSerializedSize
  pure { condition := condition, signatures := signatures }

/- Each part is within its limits. -/
structure Witness.Fits
    (limits : TxLimits)
    (witness : Witness) : Prop where
  condition :
    witness.condition.Fits limits.maxKeys limits.maxKeySize
  signatures :
    Sized limits.maxSignatures witness.signatures.length ∧
      ∀ signature ∈ witness.signatures,
        signature.Fits limits.maxSignatureSize

theorem Witness.deserialize_canonical
    (limits : TxLimits) :
    Canonical Witness.serialize
      (Witness.deserialize limits)
      (Witness.Fits limits) := by
  have hFields :=
    Canonical.pair Witness.mk Witness.condition
      Witness.signatures
      (fun _ => rfl) (fun _ _ => rfl) (fun _ _ => rfl)
      (SpendCondition.deserialize_canonical limits.maxKeys
        limits.maxKeySize)
      (readList_canonical
        (Signature.deserialize_canonical
          limits.maxSignatureSize)
        (by decide) Signature.minSerializedSize_le
        limits.maxSignatures)
  apply Canonical.congr _ (fun _ _ => rfl) hFields
  exact fun _ => ⟨fun hFits => ⟨hFits.1, hFits.2⟩,
    fun hFits => ⟨hFits.1, hFits.2⟩⟩

theorem Witness.minSerializedSize_le
    (witness : Witness) :
    Witness.minSerializedSize ≤ witness.serialize.length := by
  have hKeys :=
    length_writeCompactSize_pos
      witness.condition.keys.length
  have hSignatures :=
    length_writeCompactSize_pos witness.signatures.length
  simp only [Witness.serialize, SpendCondition.serialize,
    writeU8, writeList, List.length_append,
    List.length_singleton, Witness.minSerializedSize,
    SpendCondition.minSerializedSize]
  omega

------------------------------------------------------------
-- Inputs And Outputs
------------------------------------------------------------

/- Every input has the same size. -/
def TxInput.serializedSize : Nat := 40

/- With an empty program. -/
def TxOutput.minSerializedSize : Nat := 10

/- The outpoint, then the sequence. -/
def TxInput.deserialize : Decoder UInt8 TxInput := do
  let outpoint ← OutPoint.deserialize
  let sequence ← readU32
  pure { outpoint := outpoint, sequence := sequence }

theorem TxInput.deserialize_canonical :
    Canonical TxInput.serialize TxInput.deserialize
      fun _ => True := by
  have hFields :=
    Canonical.pair TxInput.mk TxInput.outpoint
      TxInput.sequence
      (fun _ => rfl) (fun _ _ => rfl) (fun _ _ => rfl)
      OutPoint.deserialize_canonical readU32_canonical
  apply Canonical.congr _ (fun _ _ => rfl) hFields
  intro input
  rw [and_true]

theorem TxInput.length_serialize
    (input : TxInput) :
    input.serialize.length = TxInput.serializedSize := by
  simp only [TxInput.serialize, OutPoint.serialize,
    writeHash256, writeU32, List.length_append,
    length_littleEndian, Bytes32.size_eq,
    TxInput.serializedSize]

def TxOutput.readFields
    (maxLockProgramSize : Nat) :
    Decoder UInt8 TxOutput := do
  let amount ← readI64
  let lock ← Lock.deserialize maxLockProgramSize
  pure { amount := amount, lock := lock }

/- An amount outside the money range is not read. -/
def TxOutput.deserialize
    (maxLockProgramSize : Nat) :
    Decoder UInt8 TxOutput := do
  let decoded ← TxOutput.readFields maxLockProgramSize
  if !isValidAmount decoded.amount then Decoder.fail
  else pure decoded

/- The lock is within its limit. -/
structure TxOutput.Fits
    (maxLockProgramSize : Nat)
    (output : TxOutput) : Prop where
  amount : isValidAmount output.amount = true
  lock : output.lock.Fits maxLockProgramSize

theorem TxOutput.readFields_canonical
    (maxLockProgramSize : Nat) :
    Canonical TxOutput.serialize
      (TxOutput.readFields maxLockProgramSize)
      fun output => output.lock.Fits maxLockProgramSize := by
  have hFields :=
    Canonical.pair TxOutput.mk TxOutput.amount TxOutput.lock
      (fun _ => rfl) (fun _ _ => rfl) (fun _ _ => rfl)
      readI64_canonical
      (Lock.deserialize_canonical maxLockProgramSize)
  apply Canonical.congr _ (fun _ _ => rfl) hFields
  intro output
  rw [true_and]

theorem TxOutput.deserialize_canonical
    (maxLockProgramSize : Nat) :
    Canonical TxOutput.serialize
      (TxOutput.deserialize maxLockProgramSize)
      (TxOutput.Fits maxLockProgramSize) := by
  have hChecked :
      Canonical TxOutput.serialize
        (TxOutput.deserialize maxLockProgramSize) _ :=
    (TxOutput.readFields_canonical maxLockProgramSize).guard
  apply Canonical.congr _ (fun _ _ => rfl) hChecked
  intro output
  rw [Bool.not_eq_false']
  exact ⟨fun hFits => ⟨hFits.lock, hFits.amount⟩,
    fun hFits => ⟨hFits.2, hFits.1⟩⟩

theorem TxOutput.minSerializedSize_le
    (output : TxOutput) :
    TxOutput.minSerializedSize ≤
      output.serialize.length := by
  have hSize :=
    length_writeCompactSize_pos output.lock.program.length
  simp only [TxOutput.serialize, Lock.serialize, writeI64,
    writeU64, writeU8, writeByteString, List.length_append,
    List.length_singleton, length_littleEndian,
    TxOutput.minSerializedSize]
  omega

------------------------------------------------------------
-- Transactions
------------------------------------------------------------

/- Without inputs, outputs or witnesses. -/
def Transaction.minSerializedSize : Nat := 11

/-
  The witness section, in whichever of its two forms the
  inputs read so far call for.
-/
def Transaction.readWitnessSection
    (limits : TxLimits)
    (decoded : Transaction) : Decoder UInt8 Transaction :=
  if decoded.isCoinbase then do
    let coinbaseData ←
      readByteString limits.maxCoinbaseDataSize
    pure { decoded with coinbaseData := coinbaseData }
  else do
    let witnesses ←
      readList (Witness.deserialize limits)
        limits.maxWitnesses Witness.minSerializedSize
    pure { decoded with witnesses := witnesses }

/- Every list has its limit. -/
def Transaction.deserialize
    (limits : TxLimits) : Decoder UInt8 Transaction := do
  let version ← readU32
  let inputs ←
    readList TxInput.deserialize limits.maxInputs
      TxInput.serializedSize
  let outputs ←
    readList
      (TxOutput.deserialize limits.maxLockProgramSize)
      limits.maxOutputs TxOutput.minSerializedSize
  let locktime ← readU32
  Transaction.readWitnessSection limits
    { version := version
      inputs := inputs
      outputs := outputs
      locktime := locktime
      witnesses := []
      coinbaseData := [] }

/- What follows the witness-free part of the encoding. -/
def Transaction.witnessSection
    (tx : Transaction) : ByteVec :=
  if tx.isCoinbase then
    writeByteString tx.coinbaseData
  else
    writeList Witness.serialize tx.witnesses

/- Only the witness form the inputs call for, and sized. -/
def Transaction.WitnessesFit
    (limits : TxLimits)
    (tx : Transaction) : Prop :=
  if tx.isCoinbase then
    tx.witnesses = [] ∧
      Sized limits.maxCoinbaseDataSize tx.coinbaseData.length
  else
    tx.coinbaseData = [] ∧
      Sized limits.maxWitnesses tx.witnesses.length ∧
      ∀ witness ∈ tx.witnesses, witness.Fits limits

/- What the limits ask of each list and its members. -/
structure Transaction.Fits
    (limits : TxLimits)
    (tx : Transaction) : Prop where
  inputs : Sized limits.maxInputs tx.inputs.length
  outputs :
    Sized limits.maxOutputs tx.outputs.length ∧
      ∀ output ∈ tx.outputs,
        output.Fits limits.maxLockProgramSize
  witnesses : tx.WitnessesFit limits

/- The witness-free parts of two transactions agree. -/
structure Transaction.SameBase
    (left right : Transaction) : Prop where
  version : left.version = right.version
  inputs : left.inputs = right.inputs
  outputs : left.outputs = right.outputs
  locktime : left.locktime = right.locktime

theorem Transaction.SameBase.isCoinbase
    {left right : Transaction}
    (hSame : left.SameBase right) :
    left.isCoinbase = right.isCoinbase := by
  unfold Transaction.isCoinbase
  rw [hSame.inputs]

theorem Transaction.SameBase.eq_with
    {tx decoded : Transaction}
    (hSame : tx.SameBase decoded) :
    tx =
      { decoded with
        witnesses := tx.witnesses
        coinbaseData := tx.coinbaseData } := by
  cases tx
  cases decoded
  rcases hSame with ⟨rfl, rfl, rfl, rfl⟩
  rfl

theorem Transaction.readCoinbaseData_canonical
    (limits : TxLimits)
    {decoded : Transaction}
    (hForm : decoded.isCoinbase = true)
    (hWitnesses : decoded.witnesses = []) :
    Canonical
      (fun tx : Transaction =>
        writeByteString tx.coinbaseData ++ [])
      (do
        let coinbaseData ←
          readByteString limits.maxCoinbaseDataSize
        pure { decoded with coinbaseData := coinbaseData })
      fun tx =>
        tx.WitnessesFit limits ∧ tx.SameBase decoded := by
  have hFit :
      ∀ tx : Transaction, tx.SameBase decoded →
        (tx.WitnessesFit limits ↔
          tx.witnesses = [] ∧
            Sized limits.maxCoinbaseDataSize
              tx.coinbaseData.length) := by
    intro tx hSame
    rw [WitnessesFit, hSame.isCoinbase, hForm, if_pos rfl]
  apply Canonical.step Transaction.coinbaseData
    (readByteString_canonical limits.maxCoinbaseDataSize)
    fun tx hWhole => ((hFit tx hWhole.2).mp hWhole.1).2
  intro data hSized
  have hSame :
      Transaction.SameBase
        { decoded with coinbaseData := data } decoded :=
    ⟨rfl, rfl, rfl, rfl⟩
  apply Canonical.done
  · exact ⟨⟨(hFit _ hSame).mpr ⟨hWitnesses, hSized⟩, hSame⟩,
      rfl⟩
  · rintro tx ⟨⟨hWitnessesFit, hTx⟩, rfl⟩
    rw [hTx.eq_with, ((hFit tx hTx).mp hWitnessesFit).1,
      ← hWitnesses]

theorem Transaction.readWitnesses_canonical
    (limits : TxLimits)
    {decoded : Transaction}
    (hForm : decoded.isCoinbase = false)
    (hData : decoded.coinbaseData = []) :
    Canonical
      (fun tx : Transaction =>
        writeList Witness.serialize tx.witnesses ++ [])
      (do
        let witnesses ←
          readList (Witness.deserialize limits)
            limits.maxWitnesses Witness.minSerializedSize
        pure { decoded with witnesses := witnesses })
      fun tx =>
        tx.WitnessesFit limits ∧ tx.SameBase decoded := by
  have hFit :
      ∀ tx : Transaction, tx.SameBase decoded →
        (tx.WitnessesFit limits ↔
          tx.coinbaseData = [] ∧
            Sized limits.maxWitnesses tx.witnesses.length ∧
            ∀ witness ∈ tx.witnesses,
              witness.Fits limits) := by
    intro tx hSame
    rw [WitnessesFit, hSame.isCoinbase, hForm,
      if_neg Bool.false_ne_true]
  apply Canonical.step Transaction.witnesses
    (readList_canonical
      (Witness.deserialize_canonical limits) (by decide)
      Witness.minSerializedSize_le limits.maxWitnesses)
    fun tx hWhole => ((hFit tx hWhole.2).mp hWhole.1).2
  intro witnesses hSized
  have hSame :
      Transaction.SameBase
        { decoded with witnesses := witnesses } decoded :=
    ⟨rfl, rfl, rfl, rfl⟩
  apply Canonical.done
  · exact ⟨⟨(hFit _ hSame).mpr ⟨hData, hSized⟩, hSame⟩, rfl⟩
  · rintro tx ⟨⟨hWitnessesFit, hTx⟩, rfl⟩
    rw [hTx.eq_with, ((hFit tx hTx).mp hWitnessesFit).1,
      ← hData]

theorem Transaction.readWitnessSection_canonical
    (limits : TxLimits)
    {decoded : Transaction}
    (hWitnesses : decoded.witnesses = [])
    (hData : decoded.coinbaseData = []) :
    Canonical Transaction.witnessSection
      (Transaction.readWitnessSection limits decoded)
      fun tx =>
        tx.WitnessesFit limits ∧ tx.SameBase decoded := by
  unfold Transaction.readWitnessSection
  cases hForm : decoded.isCoinbase with
  | true =>
      rw [if_pos rfl]
      apply Canonical.congr (fun _ => Iff.rfl) _
        (readCoinbaseData_canonical limits hForm hWitnesses)
      rintro tx ⟨-, hSame⟩
      rw [witnessSection, hSame.isCoinbase, hForm, if_pos rfl,
        List.append_nil]
  | false =>
      rw [if_neg Bool.false_ne_true]
      apply Canonical.congr (fun _ => Iff.rfl) _
        (readWitnesses_canonical limits hForm hData)
      rintro tx ⟨-, hSame⟩
      rw [witnessSection, hSame.isCoinbase, hForm,
        if_neg Bool.false_ne_true, List.append_nil]

theorem Transaction.deserialize_canonical
    (limits : TxLimits) :
    Canonical Transaction.serialize
      (Transaction.deserialize limits)
      (Transaction.Fits limits) := by
  have hFields :
      Canonical
        (fun tx : Transaction =>
          writeU32 tx.version ++
            (writeList TxInput.serialize tx.inputs ++
              (writeList TxOutput.serialize tx.outputs ++
                (writeU32 tx.locktime ++
                  tx.witnessSection))))
        (Transaction.deserialize limits)
        (Transaction.Fits limits) := by
    apply Canonical.step Transaction.version
      readU32_canonical fun _ _ => trivial
    intro version _
    apply Canonical.step Transaction.inputs
      (readList_canonical TxInput.deserialize_canonical
        (by decide)
        (fun input => Nat.le_of_eq input.length_serialize.symm)
        limits.maxInputs)
      fun _ hWhole => ⟨hWhole.1.inputs, fun _ _ => trivial⟩
    intro inputs hInputs
    apply Canonical.step Transaction.outputs
      (readList_canonical
        (TxOutput.deserialize_canonical
          limits.maxLockProgramSize)
        (by decide) TxOutput.minSerializedSize_le
        limits.maxOutputs)
      fun _ hWhole => hWhole.1.1.outputs
    intro outputs hOutputs
    apply Canonical.step Transaction.locktime
      readU32_canonical fun _ _ => trivial
    intro locktime _
    apply Canonical.congr _ (fun _ _ => rfl)
      (readWitnessSection_canonical limits rfl rfl)
    intro tx
    constructor
    · rintro ⟨⟨⟨⟨hFits, rfl⟩, rfl⟩, rfl⟩, rfl⟩
      exact ⟨hFits.witnesses, rfl, rfl, rfl, rfl⟩
    · rintro ⟨hWitnesses, rfl, rfl, rfl, rfl⟩
      exact ⟨⟨⟨⟨⟨hInputs.1, hOutputs, hWitnesses⟩, rfl⟩,
        rfl⟩, rfl⟩, rfl⟩
  apply Canonical.congr (fun _ => Iff.rfl) _ hFields
  intro tx _
  simp only [Transaction.serialize,
    Transaction.serializeWithoutWitnesses,
    Transaction.witnessSection, List.append_assoc]

theorem Transaction.minSerializedSize_le
    (tx : Transaction) :
    Transaction.minSerializedSize ≤ tx.serialize.length := by
  have hInputs := length_writeCompactSize_pos tx.inputs.length
  have hOutputs :=
    length_writeCompactSize_pos tx.outputs.length
  have hSection : 1 ≤ tx.witnessSection.length := by
    unfold witnessSection writeByteString writeList
    split
    · have hData :=
        length_writeCompactSize_pos tx.coinbaseData.length
      rw [List.length_append]
      omega
    · have hWitnesses :=
        length_writeCompactSize_pos tx.witnesses.length
      rw [List.length_append]
      omega
  have hSerialize :
      tx.serialize =
        tx.serializeWithoutWitnesses ++ tx.witnessSection :=
    rfl
  simp only [hSerialize, serializeWithoutWitnesses, writeU32,
    writeList, List.length_append, length_littleEndian,
    Transaction.minSerializedSize]
  omega

/- The witness-free encoding starts with the inputs. -/
theorem Transaction.read_inputs
    (tx : Transaction)
    {max : Nat}
    (hInputs : Sized max tx.inputs.length) :
    ∃ rest,
      (do
          let _ ← readU32
          readList TxInput.deserialize max
            TxInput.serializedSize)
          (.ofList tx.serializeWithoutWitnesses) =
        (some tx.inputs, .ofList rest) := by
  have hList :=
    readList_canonical TxInput.deserialize_canonical
      (by decide)
      (fun input => Nat.le_of_eq input.length_serialize.symm)
      max
  refine ⟨writeList TxOutput.serialize tx.outputs ++
    writeU32 tx.locktime, ?_⟩
  rw [serializeWithoutWitnesses, List.append_assoc,
    List.append_assoc, Decoder.bind_of_some
      (readU32_canonical.complete tx.version _ trivial)]
  exact hList.complete tx.inputs _
    ⟨hInputs, fun _ _ => trivial⟩

theorem Transaction.inputs_eq_of_serialize_eq
    {tx other : Transaction}
    (hTx : tx.inputs.length < 2 ^ 64)
    (hOther : other.inputs.length < 2 ^ 64)
    (hSame :
      tx.serializeWithoutWitnesses =
        other.serializeWithoutWitnesses) :
    tx.inputs = other.inputs := by
  have hRead : ∀ count, count < 2 ^ 64 →
      Sized (2 ^ 64) count :=
    fun _ hCount => ⟨Nat.le_of_lt hCount, hCount⟩
  rcases tx.read_inputs (hRead _ hTx) with ⟨rest, hFirst⟩
  rcases other.read_inputs (hRead _ hOther) with
    ⟨more, hSecond⟩
  rw [hSame, hSecond, Prod.mk.injEq, Option.some_inj]
    at hFirst
  exact hFirst.1.symm

------------------------------------------------------------
-- Blocks
------------------------------------------------------------

/- The fields in the order they are written. -/
def BlockHeader.deserialize : Decoder UInt8 BlockHeader := do
  let version ← readU32
  let height ← readU32
  let prevBlock ← readHash256
  let merkleRoot ← readHash256
  let timestamp ← readI64
  let targetBits ← readU32
  let nonce ← readU64
  pure
    { version := version
      height := height
      prevBlock := prevBlock
      merkleRoot := merkleRoot
      timestamp := timestamp
      targetBits := targetBits
      nonce := nonce }

theorem length_writeCompactSize
    (value : Nat) :
    (writeCompactSize value).length =
      compactSizeLen value := by
  unfold writeCompactSize compactSizeLen
  split
  · rw [length_littleEndian]
  · split
    · rw [List.length_cons, length_littleEndian]
    · split
      · rw [List.length_cons, length_littleEndian]
      · rw [List.length_cons, length_littleEndian]

theorem BlockHeader.length_serialize
    (header : BlockHeader) :
    header.serialize.length = serializedSize := by
  simp [BlockHeader.serialize, writeU32, writeU64, writeI64,
    writeHash256, Bytes32.size_eq, serializedSize]

theorem BlockHeader.deserialize_canonical :
    Canonical BlockHeader.serialize BlockHeader.deserialize
      fun _ => True := by
  have hFields :
      Canonical
        (fun header : BlockHeader =>
          writeU32 header.version ++
            (writeU32 header.height ++
              (writeHash256 header.prevBlock ++
                (writeHash256 header.merkleRoot ++
                  (writeI64 header.timestamp ++
                    (writeU32 header.targetBits ++
                      (writeU64 header.nonce ++ [])))))))
        BlockHeader.deserialize fun _ => True := by
    apply Canonical.step BlockHeader.version
      readU32_canonical fun _ _ => trivial
    intro version _
    apply Canonical.step BlockHeader.height
      readU32_canonical fun _ _ => trivial
    intro height _
    apply Canonical.step BlockHeader.prevBlock
      readHash256_canonical fun _ _ => trivial
    intro prevBlock _
    apply Canonical.step BlockHeader.merkleRoot
      readHash256_canonical fun _ _ => trivial
    intro merkleRoot _
    apply Canonical.step BlockHeader.timestamp
      readI64_canonical fun _ _ => trivial
    intro timestamp _
    apply Canonical.step BlockHeader.targetBits
      readU32_canonical fun _ _ => trivial
    intro targetBits _
    apply Canonical.step BlockHeader.nonce
      readU64_canonical fun _ _ => trivial
    intro nonce _
    apply Canonical.done
    · exact ⟨⟨⟨⟨⟨⟨⟨trivial, rfl⟩, rfl⟩, rfl⟩, rfl⟩, rfl⟩,
        rfl⟩, rfl⟩
    · rintro header
        ⟨⟨⟨⟨⟨⟨⟨-, rfl⟩, rfl⟩, rfl⟩, rfl⟩, rfl⟩, rfl⟩, rfl⟩
      rfl
  apply Canonical.congr (fun _ => Iff.rfl) _ hFields
  intro header _
  simp only [BlockHeader.serialize, List.append_assoc,
    List.append_nil]

/- The header, then the transactions. -/
def Block.deserialize
    (limits : BlockLimits) : Decoder UInt8 Block := do
  let header ← BlockHeader.deserialize
  let transactions ←
    readList (Transaction.deserialize limits.tx)
      limits.maxTransactions Transaction.minSerializedSize
  pure { header := header, transactions := transactions }

/- Neither the transactions nor their number is too large. -/
def Block.Fits
    (limits : BlockLimits)
    (block : Block) : Prop :=
  Sized limits.maxTransactions block.transactions.length ∧
    ∀ tx ∈ block.transactions, tx.Fits limits.tx

theorem Block.deserialize_canonical
    (limits : BlockLimits) :
    Canonical Block.serialize (Block.deserialize limits)
      (Block.Fits limits) := by
  have hFields :=
    Canonical.pair Block.mk Block.header Block.transactions
      (fun _ => rfl) (fun _ _ => rfl) (fun _ _ => rfl)
      BlockHeader.deserialize_canonical
      (readList_canonical
        (Transaction.deserialize_canonical limits.tx)
        (by decide) Transaction.minSerializedSize_le
        limits.maxTransactions)
  apply Canonical.congr _ (fun _ _ => rfl) hFields
  intro block
  rw [true_and]
  rfl

------------------------------------------------------------
-- Decoding Into An Output Argument
------------------------------------------------------------

/-
  What `Deserialize` promises of its output argument: an
  encoding is read back and the rest left unread, whatever is
  accepted was the encoding of the value, and a refusal
  leaves the argument alone.
-/
structure ReadsBack
    {α : Type}
    (serialize : α → ByteVec)
    (deserialize : Decoder UInt8 α)
    (fits : α → Prop) : Prop where
  reads :
    ∀ value rest out, fits value →
      deserialize.into out
          (.ofList (serialize value ++ rest)) =
        ((true, value), .ofList rest)
  canonical :
    ∀ input out value after,
      deserialize.into out (.ofList input) =
          ((true, value), after) →
        fits value ∧
          after.ok = true ∧
          input = serialize value ++ after.unread
  untouched :
    ∀ input out value after,
      deserialize.into out (.ofList input) =
          ((false, value), after) →
        value = out

theorem readsBack_of_canonical
    {α : Type}
    {serialize : α → ByteVec}
    {deserialize : Decoder UInt8 α}
    {fits : α → Prop}
    (hCanonical : Canonical serialize deserialize fits) :
    ReadsBack serialize deserialize fits where
  reads := fun _ rest out hFits =>
    hCanonical.into_complete hFits out rest
  canonical := fun _ _ _ _ hDone =>
    (hCanonical.into_sound hDone).1 rfl
  untouched := fun _ _ _ _ hDone =>
    (hCanonical.into_sound hDone).2 rfl

/- Transactions and blocks have one encoding each. -/
theorem deserialize_readsBack
    (limits : BlockLimits) :
    ReadsBack Transaction.serialize
        (Transaction.deserialize limits.tx)
        (Transaction.Fits limits.tx) ∧
      ReadsBack Block.serialize (Block.deserialize limits)
        (Block.Fits limits) :=
  ⟨readsBack_of_canonical
      (Transaction.deserialize_canonical limits.tx),
    readsBack_of_canonical
      (Block.deserialize_canonical limits)⟩

namespace Sample

/- Limits that small transactions meet. -/
def smallLimits : BlockLimits :=
  { maxTransactions := 2
    tx :=
      { maxInputs := 2
        maxOutputs := 2
        maxWitnesses := 2
        maxLockProgramSize := 32
        maxKeys := 2
        maxKeySize := 32
        maxSignatures := 2
        maxSignatureSize := 64
        maxCoinbaseDataSize := 8 } }

/- One input, one output and one signature. -/
def spending : Transaction :=
  { version := 1
    inputs :=
      [{ outpoint := { txid := Bytes32.zero, index := 3 }
         sequence := 9 }]
    outputs :=
      [{ amount := 70
         lock := { version := 1, program := [4, 2] } }]
    locktime := 6
    witnesses :=
      [{ condition :=
          { version := 1
            threshold := 1
            keys := [{ scheme := 7, bytes := [1, 2, 3] }] }
         signatures :=
          [{ scheme := 7, bytes := [5, 6] }] }]
    coinbaseData := [] }

theorem spending_fits :
    spending.Fits smallLimits.tx where
  inputs := by decide
  outputs := by
    refine ⟨by decide, ?_⟩
    rintro output (_ | ⟨_, ⟨⟩⟩)
    exact ⟨by decide, by decide, by decide⟩
  witnesses := by
    refine ⟨rfl, by decide, ?_⟩
    rintro witness (_ | ⟨_, ⟨⟩⟩)
    refine ⟨⟨by decide, ?_⟩, by decide, ?_⟩
    · rintro key (_ | ⟨_, ⟨⟩⟩)
      exact ⟨by decide, by decide⟩
    · rintro signature (_ | ⟨_, ⟨⟩⟩)
      exact ⟨by decide, by decide⟩

/- An encoding with two bytes behind it. -/
theorem spending_reads_back :
    (Transaction.deserialize smallLimits.tx).into
        { spending with version := 8 }
        (.ofList (spending.serialize ++ [1, 2])) =
      ((true, spending), .ofList [1, 2]) :=
  (deserialize_readsBack smallLimits).1.reads spending [1, 2]
    _ spending_fits

end Sample

end Amarian
