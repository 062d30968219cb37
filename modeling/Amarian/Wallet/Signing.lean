import Amarian.Primitives.Codec
import Amarian.Wallet.Wallet

/-
  What a signed payment looks like.

  Every input has one key and one signature, so that the
  weight of a payment depends on how many inputs and outputs
  there are, and an input is authorised when its coin is
  locked to its key.

  Key definitions include:
    * `Wallet.SinglySigned`
    * `Wallet.OpensWith`

  Key theorems include:
    * `Wallet.signInputs_spec`
    * `Wallet.weight_signed`
-/

------------------------------------------------------------
-- Witnesses
------------------------------------------------------------

namespace Amarian

namespace Wallet

/- One Schnorr key, and one signature of the right size. -/
def SinglySigned
    (witness : Witness) : Prop :=
  ∃ key bytes,
    witness =
        { condition :=
            singleKeyCondition schemeSchnorrSecp256k1 key
          signatures :=
            [{ scheme := schemeSchnorrSecp256k1, bytes }] } ∧
      key.length = 32 ∧ bytes.length = 64

theorem SinglySigned.checkWitness
    {witness : Witness}
    (hWitness : SinglySigned witness)
    {params : ChainParams}
    (hKeys : 0 < params.blockLimits.tx.maxKeys) :
    checkWitness witness params = .ok () := by
  rcases hWitness with ⟨key, bytes, rfl, hKey, hBytes⟩
  have hFound :
      findScheme schemeSchnorrSecp256k1 =
        some ⟨schemeSchnorrSecp256k1, 32, 64⟩ := by
    decide
  have hScheme :
      schemeSchnorrSecp256k1 ≠ schemeReserved := by
    decide
  have hOne : (1 : UInt8) ≠ 0 := by
    decide
  rw [checkWitness_eq_ok, checkSpendCondition_eq_ok]
  refine ⟨⟨hOne, fun _ => ⟨List.cons_ne_nil _ _, hKeys,
    hOne, Nat.le_refl 1, ?_⟩⟩, ?_, fun _ => ⟨rfl, ?_⟩⟩
  · have hSize :
        hasWrongPublicKeySize
            { scheme := schemeSchnorrSecp256k1
              bytes := key } =
          false := by
      rw [hasWrongPublicKeySize, hFound]
      exact bne_eq_false_iff_eq.mpr hKey
    unfold singleKeyCondition checkKeys
    dsimp only
    rw [hSize]
    rfl
  · intro signature hSignature
    rcases List.mem_singleton.mp hSignature with rfl
    exact hScheme
  · intro signature hSignature
    rcases List.mem_singleton.mp hSignature with rfl
    rw [hasWrongSignatureSize, hFound]
    exact bne_eq_false_iff_eq.mpr hBytes

------------------------------------------------------------
-- Authorised Inputs
------------------------------------------------------------

section Signatures

variable {c : Crypto} {signer : Signer}

/- The coin is locked to the key it will be signed with. -/
def OpensWith
    (c : Crypto)
    (signer : Signer)
    (privateKey : ByteVec)
    (coin : Coin) : Prop :=
  ∃ pair,
    generateSchnorrKey signer privateKey = some pair ∧
      coin.output.lock = keyLock c pair

theorem signInput_schnorr
    (hSigns : SignsWell signer c)
    {chainId : Hash256}
    {tx : Transaction}
    {midstates : SigHashMidstates}
    {index : Nat}
    {amount : Int64}
    {privateKey bytes : ByteVec}
    (hSign :
      TxBuilder.signInput c signer chainId tx midstates index
          amount
          (TxBuilder.buildSpendCondition signer privateKey
            schemeSchnorrSecp256k1)
          privateKey schemeSchnorrSecp256k1 =
        some bytes) :
    ∃ pair,
      generateSchnorrKey signer privateKey = some pair ∧
        TxBuilder.buildSpendCondition signer privateKey
            schemeSchnorrSecp256k1 =
          singleKeyCondition schemeSchnorrSecp256k1
            pair.publicKey ∧
        pair.publicKey.length = 32 ∧
        bytes.length = 64 ∧
        c.verify schemeSchnorrSecp256k1 pair.publicKey bytes
            (signatureHash c chainId tx midstates
              (UInt32.ofNat index) amount
              (singleKeyCondition schemeSchnorrSecp256k1
                pair.publicKey)) =
          .valid := by
  rw [TxBuilder.signInput, if_pos rfl] at hSign
  rcases generateSchnorrKey_of_sign hSigns hSign with
    ⟨pair, hPair, hKey, hBytes, hValid⟩
  have hCondition :
      TxBuilder.buildSpendCondition signer privateKey
          schemeSchnorrSecp256k1 =
        singleKeyCondition schemeSchnorrSecp256k1
          pair.publicKey := by
    rw [TxBuilder.buildSpendCondition, if_pos rfl, hPair]
  rw [hCondition] at hValid
  exact ⟨pair, hPair, hCondition, hKey, hBytes, hValid⟩

/- A signature that verifies leaves the lock to be checked. -/
theorem authoriseInput_signed
    {params : ChainParams}
    {tx : Transaction}
    {midstates : SigHashMidstates}
    {index : Nat}
    {output : TxOutput}
    (hLock :
      output.lock.version = lockVersionConditionCommitment)
    {pair : KeyPair}
    {bytes : ByteVec}
    (hValid :
      c.verify schemeSchnorrSecp256k1 pair.publicKey bytes
          (signatureHash c params.chainId tx midstates
            (UInt32.ofNat index) output.amount
            (singleKeyCondition schemeSchnorrSecp256k1
              pair.publicKey)) =
        .valid) :
    authoriseInput c params tx midstates index output
          { condition :=
              singleKeyCondition schemeSchnorrSecp256k1
                pair.publicKey
            signatures :=
              [{ scheme := schemeSchnorrSecp256k1
                 bytes }] } =
        .ok () ↔
      output.lock = keyLock c pair := by
  have hSpendable : ¬output.lock.isUnspendable = true := by
    rw [Lock.isUnspendable, hLock]
    decide
  have hSame :
      output.lock = keyLock c pair ↔
        matchesConditionCommitment c output.lock
            (singleKeyCondition schemeSchnorrSecp256k1
              pair.publicKey) =
          true := by
    rw [matchesConditionCommitment, beq_iff_eq]
    constructor
    · intro hKeyLock
      rw [hKeyLock]
      rfl
    · intro hProgram
      rcases hParts : output.lock with ⟨version, program⟩
      rw [hParts] at hLock hProgram
      dsimp only at hLock hProgram
      rw [hLock, hProgram]
      rfl
  rw [authoriseInput, if_neg hSpendable,
    if_neg (not_not_intro hLock), hSame]
  dsimp only
  rcases matchesConditionCommitment c output.lock
    (singleKeyCondition schemeSchnorrSecp256k1
      pair.publicKey) with _ | _
  · simp
  · have hThreshold :
        ¬(singleKeyCondition schemeSchnorrSecp256k1
            pair.publicKey).version ≠
          conditionVersionThreshold :=
      not_not_intro rfl
    rw [if_neg (by decide), if_neg hThreshold]
    unfold singleKeyCondition satisfiesThreshold
      satisfyWithKeys
    unfold singleKeyCondition at hValid
    dsimp only
    rw [if_neg (not_not_intro rfl), hValid]
    simp [bind, Except.bind, satisfiesThreshold]

/-
  By induction on the inputs: they are all signed, and are
  authorised where every coin is locked to its key.
-/
theorem signInputs_spec
    (hSigns : SignsWell signer c)
    {params : ChainParams}
    {tx : Transaction}
    {midstates : SigHashMidstates}
    {privateKey : UtxoEntry → ByteVec}
    {entries : List UtxoEntry}
    (hLocks :
      ∀ entry ∈ entries,
        entry.coin.output.lock.version =
          lockVersionConditionCommitment)
    {start : Nat}
    {witnesses : List Witness}
    (hSigned :
      TxBuilder.signInputs c signer params.chainId tx
          midstates start (entries.map UtxoEntry.coin)
          (entries.map privateKey)
          (entries.map fun _ => schemeSchnorrSecp256k1) =
        some witnesses) :
    witnesses.length = entries.length ∧
      (∀ witness ∈ witnesses, SinglySigned witness) ∧
      ∀ signed : List Witness,
        (authoriseInputs c params
              { tx with witnesses := signed } midstates start
              (entries.map UtxoEntry.coin) witnesses =
            .ok () ↔
          ∀ entry ∈ entries,
            OpensWith c signer (privateKey entry)
              entry.coin) := by
  induction entries generalizing start witnesses with
  | nil =>
      cases hSigned
      exact ⟨rfl, by simp, fun _ => by
        simp [authoriseInputs]⟩
  | cons entry entries ih =>
      rw [List.forall_mem_cons] at hLocks
      simp only [List.map_cons] at hSigned
      rw [TxBuilder.signInputs] at hSigned
      rcases Option.bind_eq_some_iff.mp hSigned with
        ⟨bytes, hBytes, hAfter⟩
      rcases Option.bind_eq_some_iff.mp hAfter with
        ⟨rest, hRest, hDone⟩
      rcases signInput_schnorr hSigns hBytes with
        ⟨pair, hPair, hCondition, hKey, hSize, hValid⟩
      rw [hCondition] at hDone
      cases hDone
      rcases ih hLocks.2 hRest with
        ⟨hLength, hEach, hRestOk⟩
      refine ⟨congrArg Nat.succ hLength, ?_, ?_⟩
      · intro witness hWitness
        rcases List.mem_cons.mp hWitness with rfl | hOld
        · exact ⟨_, bytes, rfl, hKey, hSize⟩
        · exact hEach witness hOld
      · intro signed
        have hFirst :
            authoriseInput c params
                  { tx with witnesses := signed } midstates
                  start entry.coin.output
                  { condition :=
                      singleKeyCondition
                        schemeSchnorrSecp256k1
                        pair.publicKey
                    signatures :=
                      [{ scheme := schemeSchnorrSecp256k1
                         bytes }] } =
                .ok () ↔
              entry.coin.output.lock = keyLock c pair :=
          authoriseInput_signed hLocks.1 hValid
        have hOpens :
            OpensWith c signer (privateKey entry)
                entry.coin ↔
              entry.coin.output.lock = keyLock c pair := by
          constructor
          · rintro ⟨other, hOther, hLock⟩
            rw [hPair] at hOther
            cases hOther
            exact hLock
          · exact fun hLock => ⟨pair, hPair, hLock⟩
        rw [List.map_cons, authoriseInputs,
          List.forall_mem_cons, except_check_eq_ok, hFirst,
          hRestOk signed, hOpens]

end Signatures

------------------------------------------------------------
-- Weight
------------------------------------------------------------

theorem length_writeList
    {α : Type}
    {write : α → ByteVec}
    {items : List α}
    {size : Nat}
    (hSize : ∀ item ∈ items, (write item).length = size) :
    (writeList write items).length =
      compactSizeLen items.length + size * items.length := by
  rw [writeList, List.length_append,
    length_writeCompactSize, length_flatMap_of_length hSize]

theorem length_writeByteString
    (bytes : ByteVec) :
    (writeByteString bytes).length =
      compactSizeLen bytes.length + bytes.length := by
  rw [writeByteString, List.length_append,
    length_writeCompactSize]

theorem SinglySigned.length_serialize
    {witness : Witness}
    (hWitness : SinglySigned witness) :
    witness.serialize.length = 106 := by
  rcases hWitness with ⟨key, bytes, rfl, hKey, hBytes⟩
  have hKeySize : ∀ other ∈
      [(⟨schemeSchnorrSecp256k1, key⟩ : PublicKey)],
      other.serialize.length = 35 := by
    intro other hOther
    rcases List.mem_singleton.mp hOther with rfl
    rw [PublicKey.serialize, List.length_append, writeU16,
      length_littleEndian, length_writeByteString]
    dsimp only
    rw [hKey]
    rfl
  have hSignatureSize : ∀ other ∈
      [(⟨schemeSchnorrSecp256k1, bytes⟩ : Signature)],
      other.serialize.length = 67 := by
    intro other hOther
    rcases List.mem_singleton.mp hOther with rfl
    rw [Signature.serialize, List.length_append, writeU16,
      length_littleEndian, length_writeByteString]
    dsimp only
    rw [hBytes]
    rfl
  rw [Witness.serialize, SpendCondition.serialize,
    List.length_append, List.length_append,
    List.length_append, length_writeList hSignatureSize]
  unfold singleKeyCondition
  dsimp only
  rw [length_writeList hKeySize]
  rfl

/-
  So many bytes for each input, output and witness, and the
  counts of all three.
-/
theorem weight_signed
    {tx : Transaction}
    (hSpending : tx.isCoinbase = false)
    (hCount : tx.witnesses.length = tx.inputs.length)
    (hWitnesses :
      ∀ witness ∈ tx.witnesses, SinglySigned witness)
    (hOutputs :
      ∀ output ∈ tx.outputs,
        output.lock.program.length = 32) :
    tx.weight =
      32 + 266 * tx.inputs.length + 168 * tx.outputs.length +
        5 * compactSizeLen tx.inputs.length +
        4 * compactSizeLen tx.outputs.length := by
  have hInputs : ∀ input ∈ tx.inputs,
      input.serialize.length = 40 := by
    intro input _
    rw [TxInput.serialize, OutPoint.serialize,
      List.length_append, List.length_append, writeU32,
      writeU32, length_littleEndian, length_littleEndian,
      writeHash256, input.outpoint.txid.size_eq]
  have hPaid : ∀ output ∈ tx.outputs,
      output.serialize.length = 42 := by
    intro output hOutput
    rw [TxOutput.serialize, List.length_append,
      Lock.serialize, List.length_append, writeI64, writeU64,
      length_littleEndian, length_writeByteString,
      hOutputs output hOutput]
    rfl
  have hBase :
      tx.serializeWithoutWitnesses.length =
        8 + (compactSizeLen tx.inputs.length +
          40 * tx.inputs.length) +
          (compactSizeLen tx.outputs.length +
            42 * tx.outputs.length) := by
    rw [Transaction.serializeWithoutWitnesses,
      List.length_append, List.length_append,
      List.length_append, length_writeList hInputs,
      length_writeList hPaid, writeU32, writeU32,
      length_littleEndian, length_littleEndian]
    omega
  have hWhole :
      tx.serialize.length =
        tx.serializeWithoutWitnesses.length +
          (compactSizeLen tx.inputs.length +
            106 * tx.inputs.length) := by
    rw [Transaction.serialize, hSpending, if_neg (by decide),
      List.length_append,
      length_writeList fun witness hWitness =>
        (hWitnesses witness hWitness).length_serialize,
      hCount]
  unfold Transaction.weight witnessScaleFactor
  dsimp only
  omega

end Wallet

end Amarian
