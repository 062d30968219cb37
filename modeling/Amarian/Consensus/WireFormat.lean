import Amarian.Consensus.Rules
import Amarian.Primitives.Codec

/-
  Validation against the wire format.

  The decoder bounds every nested length.  Validation bounds
  the counts it knows the meaning of and leaves the rest
  open: lock programs, and whatever belongs to a condition
  version or a scheme this build does not know.

  Key definitions include:
    * `Transaction.OpenPartsFit`

  Key theorems include:
    * `fits_of_checkTransaction`
    * `deserialize_serialize_iff_openPartsFit`
-/

------------------------------------------------------------
-- What Validation Leaves Open
------------------------------------------------------------

namespace Amarian

open Codec

/- The rules of this condition version are known. -/
def Witness.isKnown
    (witness : Witness) : Prop :=
  witness.condition.version = conditionVersionThreshold

/- What no rule bounds is within the reader's limits. -/
structure Witness.OpenPartsFit
    (limits : TxLimits)
    (witness : Witness) : Prop where
  counts :
    ¬witness.isKnown →
      witness.condition.keys.length ≤ limits.maxKeys ∧
        witness.signatures.length ≤ limits.maxSignatures
  keys :
    ∀ key ∈ witness.condition.keys,
      ¬witness.isKnown ∨ findScheme key.scheme = none →
        key.bytes.length ≤ limits.maxKeySize
  signatures :
    ∀ signature ∈ witness.signatures,
      ¬witness.isKnown ∨
          findScheme signature.scheme = none →
        signature.bytes.length ≤ limits.maxSignatureSize

/-
  The lengths that no rule of validation bounds are within
  the limits of the decoder.
-/
structure Transaction.OpenPartsFit
    (limits : TxLimits)
    (tx : Transaction) : Prop where
  locks :
    ∀ output ∈ tx.outputs,
      output.lock.program.length ≤ limits.maxLockProgramSize
  witnesses :
    ∀ witness ∈ tx.witnesses, witness.OpenPartsFit limits

/- The decoder bounds them all. -/
theorem Transaction.Fits.openPartsFit
    {limits : TxLimits}
    {tx : Transaction}
    (hFits : tx.Fits limits) :
    tx.OpenPartsFit limits where
  locks := fun output hOutput =>
    (hFits.outputs.2 output hOutput).lock.within
  witnesses := by
    intro witness hWitness
    have hForm := hFits.witnesses
    unfold WitnessesFit at hForm
    split at hForm
    · rw [hForm.1] at hWitness
      cases hWitness
    · have hWitnessFits := hForm.2.2 witness hWitness
      exact
        { counts := fun _ =>
            ⟨hWitnessFits.condition.1.within,
              hWitnessFits.signatures.1.within⟩
          keys := fun key hKey _ =>
            (hWitnessFits.condition.2 key hKey).within
          signatures := fun signature hSignature _ =>
            (hWitnessFits.signatures.2 signature
              hSignature).within }

------------------------------------------------------------
-- What Validation Bounds
------------------------------------------------------------

section Bounds

variable {params : ChainParams}

theorem checkKeys_sizes
    {previous : Option PublicKey}
    {keys : List PublicKey}
    (hKeys : checkKeys previous keys = .ok ()) :
    ∀ key ∈ keys, hasWrongPublicKeySize key = false := by
  induction keys generalizing previous with
  | nil => simp
  | cons key rest ih =>
      rw [checkKeys, except_check_eq_ok, except_check_eq_ok,
        except_check_eq_ok, rejectIf_eq_ok,
        rejectIf_eq_ok] at hKeys
      exact List.forall_mem_cons.mpr
        ⟨hKeys.2.1, ih hKeys.2.2.2⟩

/- Every scheme's keys and signatures fit the decoder. -/
theorem findScheme_sizes
    {scheme : UInt16}
    {spec : SchemeSpec}
    (hSpec : findScheme scheme = some spec) :
    spec.publicKeyBytes ≤ consensusTxLimits.maxKeySize ∧
      spec.signatureBytes ≤
        consensusTxLimits.maxSignatureSize := by
  have hAll :
      ∀ spec ∈ schemes,
        spec.publicKeyBytes ≤ consensusTxLimits.maxKeySize ∧
          spec.signatureBytes ≤
            consensusTxLimits.maxSignatureSize := by
    decide
  exact hAll spec (List.mem_of_find?_eq_some hSpec)

theorem publicKey_fits
    {key : PublicKey}
    (hSize : hasWrongPublicKeySize key = false)
    (hOpen :
      findScheme key.scheme = none →
        key.bytes.length ≤ consensusTxLimits.maxKeySize) :
    key.Fits consensusTxLimits.maxKeySize := by
  have hWithin :
      key.bytes.length ≤ consensusTxLimits.maxKeySize := by
    cases hSpec : findScheme key.scheme with
    | none => exact hOpen hSpec
    | some spec =>
        simp only [hasWrongPublicKeySize, hSpec,
          bne_eq_false_iff_eq] at hSize
        rw [hSize]
        exact (findScheme_sizes hSpec).1
  exact ⟨hWithin, Nat.lt_of_le_of_lt hWithin (by decide)⟩

theorem signature_fits
    {signature : Signature}
    (hSize : hasWrongSignatureSize signature = false)
    (hOpen :
      findScheme signature.scheme = none →
        signature.bytes.length ≤
          consensusTxLimits.maxSignatureSize) :
    signature.Fits consensusTxLimits.maxSignatureSize := by
  have hWithin :
      signature.bytes.length ≤
        consensusTxLimits.maxSignatureSize := by
    cases hSpec : findScheme signature.scheme with
    | none => exact hOpen hSpec
    | some spec =>
        simp only [hasWrongSignatureSize, hSpec,
          bne_eq_false_iff_eq] at hSize
        rw [hSize]
        exact (findScheme_sizes hSpec).2
  exact ⟨hWithin, Nat.lt_of_le_of_lt hWithin (by decide)⟩

variable (hLimits : params.blockLimits = consensusBlockLimits)
include hLimits

/- A condition whose rules are known has bounded counts. -/
theorem witness_fits_of_known
    {witness : Witness}
    (hKnown : witness.isKnown)
    (hChecked : checkWitness witness params = .ok ())
    (hOpen : witness.OpenPartsFit consensusTxLimits) :
    witness.Fits consensusTxLimits := by
  rcases checkWitness_eq_ok.mp hChecked with
    ⟨hCondition, -, hSignatures⟩
  rcases hSignatures hKnown with ⟨hCount, hSizes⟩
  rcases (checkSpendCondition_eq_ok.mp hCondition).2 hKnown
    with ⟨-, hKeys, -, hThreshold, hOrdered⟩
  rw [hLimits] at hKeys
  have hFew :
      witness.signatures.length ≤
        consensusTxLimits.maxSignatures := by
    rw [hCount]
    exact hThreshold.trans hKeys
  refine ⟨⟨⟨hKeys, Nat.lt_of_le_of_lt hKeys (by decide)⟩,
    ?_⟩, ⟨hFew, Nat.lt_of_le_of_lt hFew (by decide)⟩, ?_⟩
  · intro key hKey
    apply publicKey_fits (checkKeys_sizes hOrdered key hKey)
    exact fun hNone => hOpen.keys key hKey (.inr hNone)
  · intro signature hSignature
    apply signature_fits (hSizes signature hSignature)
    exact fun hNone =>
      hOpen.signatures signature hSignature (.inr hNone)

omit hLimits in
theorem witness_fits_of_unknown
    {witness : Witness}
    (hUnknown : ¬witness.isKnown)
    (hOpen : witness.OpenPartsFit consensusTxLimits) :
    witness.Fits consensusTxLimits := by
  rcases hOpen.counts hUnknown with ⟨hKeys, hFew⟩
  refine ⟨⟨⟨hKeys, Nat.lt_of_le_of_lt hKeys (by decide)⟩,
    ?_⟩, ⟨hFew, Nat.lt_of_le_of_lt hFew (by decide)⟩, ?_⟩
  · intro key hKey
    have hSize := hOpen.keys key hKey (.inl hUnknown)
    exact ⟨hSize, Nat.lt_of_le_of_lt hSize (by decide)⟩
  · intro signature hSignature
    have hSize :=
      hOpen.signatures signature hSignature (.inl hUnknown)
    exact ⟨hSize, Nat.lt_of_le_of_lt hSize (by decide)⟩

/- Everything else is bounded by the rules. -/
theorem fits_of_checkTransaction
    {tx : Transaction}
    (hChecked : checkTransaction tx params = .ok ())
    (hOpen : tx.OpenPartsFit consensusTxLimits) :
    tx.Fits consensusTxLimits := by
  rcases checkTransaction_eq_ok.mp hChecked with
    ⟨-, -, hInputs, hOutputs, hForm, hAmounts, hSpends, -⟩
  rcases checkTransactionForm_eq_ok.mp hForm with
    ⟨hCoinbase, hOrdinary⟩
  rw [hLimits] at hInputs hOutputs hCoinbase
  refine ⟨⟨hInputs, Nat.lt_of_le_of_lt hInputs (by decide)⟩,
    ⟨⟨hOutputs, Nat.lt_of_le_of_lt hOutputs (by decide)⟩,
      ?_⟩, ?_⟩
  · intro output hOutput
    have hProgram := hOpen.locks output hOutput
    exact ⟨checkOutputAmounts_valid hAmounts output hOutput,
      hProgram, Nat.lt_of_le_of_lt hProgram (by decide)⟩
  · unfold Transaction.WitnessesFit
    split
    · rename_i hTrue
      rcases hCoinbase hTrue with ⟨hNone, hData⟩
      exact ⟨hNone, hData,
        Nat.lt_of_le_of_lt hData (by decide)⟩
    · rename_i hFalse
      rw [Bool.not_eq_true] at hFalse
      rcases hOrdinary hFalse with ⟨hNone, hCount, -⟩
      have hFew :
          tx.witnesses.length ≤
            consensusTxLimits.maxWitnesses := by
        rw [hCount]
        exact hInputs
      refine ⟨hNone,
        ⟨hFew, Nat.lt_of_le_of_lt hFew (by decide)⟩, ?_⟩
      intro witness hWitness
      have hWitnessOpen := hOpen.witnesses witness hWitness
      by_cases hKnown : witness.isKnown
      · exact witness_fits_of_known hLimits hKnown
          ((hSpends hFalse).2 witness hWitness) hWitnessOpen
      · exact witness_fits_of_unknown hKnown hWitnessOpen

end Bounds

------------------------------------------------------------
-- Reading Back What Was Accepted
------------------------------------------------------------

theorem paramsFor_blockLimits
    (network : Network) :
    (paramsFor network).blockLimits =
      consensusBlockLimits := by
  cases network <;> rfl

/-
  An accepted transaction is read back from its own encoding
  exactly when the lengths validation leaves open are within
  the limits of the decoder.
-/
theorem deserialize_serialize_iff_openPartsFit
    (network : Network)
    (tx : Transaction)
    (hAccepted :
      checkTransaction tx (paramsFor network) = .ok ()) :
    Transaction.deserialize
          (paramsFor network).blockLimits.tx
          (.ofList tx.serialize) =
        (some tx, .ofList []) ↔
      tx.OpenPartsFit
        (paramsFor network).blockLimits.tx := by
  have hLimits := paramsFor_blockLimits network
  have hCanonical :=
    Transaction.deserialize_canonical consensusTxLimits
  constructor
  · intro hDone
    rw [hLimits] at hDone ⊢
    exact (hCanonical.sound _ _ _ rfl hDone).2.1.openPartsFit
  · intro hOpen
    rw [hLimits] at hOpen ⊢
    have hFits :=
      fits_of_checkTransaction hLimits hAccepted hOpen
    have hRead := hCanonical.complete tx [] hFits
    rw [List.append_nil] at hRead
    exact hRead

namespace Sample

/- A coinbase that pays a lock with a program of zeros. -/
def payingProgram
    (size : Nat) : Transaction :=
  { version := 1
    inputs := [makeCoinbaseInput 1]
    outputs :=
      [{ amount := 5
         lock :=
          { version := lockVersionConditionCommitment
            program := List.replicate size 0 } }]
    locktime := 0
    witnesses := []
    coinbaseData := [] }

theorem payingProgram_reads_back :
    checkTransaction (payingProgram 128) mainnetParams =
        .ok () ∧
      (Transaction.deserialize mainnetParams.blockLimits.tx
            (.ofList (payingProgram 128).serialize) =
          (some (payingProgram 128), .ofList []) ↔
        (payingProgram 128).OpenPartsFit
          mainnetParams.blockLimits.tx) := by
  have hAccepted :
      checkTransaction (payingProgram 128)
          (paramsFor .mainnet) =
        .ok () := by
    decide +kernel
  exact ⟨hAccepted,
    deserialize_serialize_iff_openPartsFit .mainnet
      (payingProgram 128) hAccepted⟩

/- One byte more is accepted and is not read back. -/
theorem payingProgram_not_read_back :
    ¬∀ (network : Network) (tx : Transaction),
      checkTransaction tx (paramsFor network) = .ok () →
        Transaction.deserialize
            (paramsFor network).blockLimits.tx
            (.ofList tx.serialize) =
          (some tx, .ofList []) := by
  intro hAll
  have hAccepted :
      checkTransaction (payingProgram 129)
          (paramsFor .mainnet) =
        .ok () := by
    decide +kernel
  have hRefused :
      (Transaction.deserialize mainnetParams.blockLimits.tx
        (.ofList (payingProgram 129).serialize)).1 =
        none := by
    decide +kernel
  rw [show mainnetParams = paramsFor .mainnet from rfl,
    hAll .mainnet _ hAccepted] at hRefused
  cases hRefused

end Sample

end Amarian
