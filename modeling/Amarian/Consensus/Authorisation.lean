import Amarian.Consensus.Rules
import Amarian.Crypto.Sha256
import Mathlib.Data.List.NodupEquivFin

/-
  Which spends the authorisation check accepts.

  The check walks keys and signatures once and consumes
  every key it looks at.  The walk finds an order-preserving
  matching of the signatures into the keys whenever there is
  one, so what it accepts can be said without the walk.

  Key definitions include:
    * `Answers`
    * `SignedInOrder`
    * `Authorised`

  Key theorems include:
    * `satisfiesThreshold_eq_ok`
    * `satisfiesThreshold_arrangement`
    * `checkSpendAuthorisation_iff`
-/

------------------------------------------------------------
-- Ordered Forward Match
------------------------------------------------------------

namespace Amarian

section Matching

variable {α β : Type} {rel : α → β → Prop}

/- An item less on the left is still matched. -/
theorem sublistForall₂_tail
    {item : α}
    {items : List α}
    {others : List β}
    (hMatch :
      List.SublistForall₂ rel (item :: items) others) :
    List.SublistForall₂ rel items others := by
  generalize hAll : item :: items = all at hMatch
  induction hMatch with
  | nil => cases hAll
  | cons hRel hRest ih =>
      cases hAll
      exact .cons_right hRest
  | cons_right hRest ih => exact .cons_right (ih hAll)

/-
  The exchange: whatever the first item is matched with, it
  can be matched with the first thing it fits.
-/
theorem sublistForall₂_cons_of_rel
    {item : α}
    {items : List α}
    {other : β}
    {others : List β}
    (hRel : rel item other) :
    List.SublistForall₂ rel (item :: items)
        (other :: others) ↔
      List.SublistForall₂ rel items others := by
  constructor
  · intro hMatch
    cases hMatch with
    | cons _ hRest => exact hRest
    | cons_right hRest => exact sublistForall₂_tail hRest
  · exact .cons hRel

/- What the first item does not fit is passed over. -/
theorem sublistForall₂_cons_of_not_rel
    {item : α}
    {items : List α}
    {other : β}
    {others : List β}
    (hRel : ¬rel item other) :
    List.SublistForall₂ rel (item :: items)
        (other :: others) ↔
      List.SublistForall₂ rel (item :: items) others := by
  constructor
  · intro hMatch
    cases hMatch with
    | cons hHere _ => exact absurd hHere hRel
    | cons_right hRest => exact hRest
  · exact .cons_right

/- A matching is a strictly increasing choice of positions. -/
theorem sublistForall₂_iff_strictMono
    {items : List α}
    {others : List β} :
    List.SublistForall₂ rel items others ↔
      ∃ position : Fin items.length → Fin others.length,
        StrictMono position ∧
          ∀ index,
            rel (items.get index)
              (others.get (position index)) := by
  rw [List.sublistForall₂_iff]
  constructor
  · rintro ⟨chosen, hChosen, hSublist⟩
    rcases
      List.sublist_iff_exists_fin_orderEmbedding_get_eq.mp
        hSublist with
      ⟨embed, hEmbed⟩
    have hLength := hChosen.length_eq
    refine ⟨fun index => embed (index.cast hLength), ?_, ?_⟩
    · intro first second hLess
      exact embed.strictMono hLess
    · intro index
      rw [← hEmbed]
      exact hChosen.get index.isLt (index.cast hLength).isLt
  · rintro ⟨position, hMono, hRel⟩
    refine ⟨List.ofFn fun index =>
      others.get (position index), ?_, ?_⟩
    · rw [List.forall₂_iff_get]
      refine ⟨by simp, ?_⟩
      intro index hItem hOther
      simpa using hRel ⟨index, hItem⟩
    · rw
        [List.sublist_iff_exists_fin_orderEmbedding_get_eq]
      refine ⟨OrderEmbedding.ofStrictMono
        (fun index => position (index.cast (by simp))) ?_,
        ?_⟩
      · intro first second hLess
        exact hMono hLess
      · intro index
        rw [List.get_ofFn]
        rfl

/-
  Where each item fits one place at most, the places put the
  items in order, so no other arrangement can be matched.
-/
theorem eq_of_perm_of_sublistForall₂
    {items arranged : List α}
    {others : List β}
    (hOnce :
      ∀ item ∈ items,
        ∀ first second : Fin others.length,
          rel item (others.get first) →
            rel item (others.get second) →
              first = second)
    (hPerm : arranged.Perm items)
    (hItems : List.SublistForall₂ rel items others)
    (hArranged : List.SublistForall₂ rel arranged others) :
    arranged = items := by
  let before : α → α → Prop := fun item next =>
    ∃ first second : Fin others.length,
      first < second ∧
        rel item (others.get first) ∧
        rel next (others.get second)
  have hOrdered : ∀ {all : List α},
      List.SublistForall₂ rel all others →
        all.Pairwise before := by
    intro all hAll
    rcases sublistForall₂_iff_strictMono.mp hAll with
      ⟨position, hMono, hRel⟩
    rw [List.pairwise_iff_get]
    intro first second hLess
    exact ⟨position first, position second, hMono hLess,
      hRel first, hRel second⟩
  apply List.Perm.eq_of_pairwise _ (hOrdered hArranged)
    (hOrdered hItems) hPerm
  rintro item next hItem hNext
    ⟨first, second, hLess, hFirst, hSecond⟩
    ⟨third, fourth, hAlso, hThird, hFourth⟩
  have hSame := hOnce next hNext second third hSecond hThird
  have hToo := hOnce item (hPerm.subset hItem) first fourth
    hFirst hFourth
  rw [hSame, hToo] at hLess
  exact absurd hAlso (Nat.lt_asymm hLess)

end Matching

------------------------------------------------------------
-- Keys And Signatures
------------------------------------------------------------

/- The back ends give one of their own three verdicts. -/
def Crypto.BackEndsAnswer
    (c : Crypto) : Prop :=
  (∀ key signature message,
    c.verifySchnorr key signature message ∈
      [VerifyResult.valid, .invalid, .malformed]) ∧
    ∀ scheme key signature message,
      c.verifyWithOpenSsl scheme key signature message ∈
        [VerifyResult.valid, .invalid, .malformed]

/- The key is for this scheme and its owner signed. -/
def Answers
    (c : Crypto)
    (message : Hash256)
    (signature : Signature)
    (key : PublicKey) : Prop :=
  key.scheme = signature.scheme ∧
    (c.verify signature.scheme key.bytes signature.bytes
          message =
        .valid ∨
      c.verify signature.scheme key.bytes signature.bytes
          message =
        .unknownScheme)

/- Each signature has a key, and the keys come in order. -/
def SignedInOrder
    (c : Crypto)
    (message : Hash256)
    (witness : Witness) : Prop :=
  ∃ position :
      Fin witness.signatures.length →
        Fin witness.condition.keys.length,
    StrictMono position ∧
      ∀ index,
        Answers c message (witness.signatures.get index)
          (witness.condition.keys.get (position index))

section Threshold

variable {c : Crypto} {message : Hash256}

theorem verify_ne_reserved
    (hBackEnds : c.BackEndsAnswer)
    {scheme : UInt16}
    (hScheme : scheme ≠ schemeReserved)
    (key signature : ByteVec)
    (message : Hash256) :
    c.verify scheme key signature message ≠ .reserved := by
  have hSchnorr := hBackEnds.1 key signature message
  have hOpenSsl := hBackEnds.2 scheme key signature message
  intro hReserved
  unfold Crypto.verify at hReserved
  rw [if_neg hScheme] at hReserved
  split at hReserved
  · cases hReserved
  · split at hReserved
    · cases hReserved
    · split at hReserved
      · rw [hReserved] at hSchnorr
        simp at hSchnorr
      · split at hReserved
        · rw [hReserved] at hOpenSsl
          simp at hOpenSsl
        · cases hReserved

/-
  The first key that answers is taken, and the walk goes on
  behind it.
-/
theorem satisfyWithKeys_bind_eq_ok
    (hBackEnds : c.BackEndsAnswer)
    {signature : Signature}
    {rest : List Signature}
    (hScheme : signature.scheme ≠ schemeReserved)
    (hRest :
      ∀ keys,
        satisfiesThreshold c message keys rest = .ok () ↔
          List.SublistForall₂ (Answers c message) rest keys)
    (keys : List PublicKey) :
    satisfiesThreshold c message keys (signature :: rest) =
        .ok () ↔
      List.SublistForall₂ (Answers c message)
        (signature :: rest) keys := by
  rw [satisfiesThreshold, except_bind_eq_ok]
  induction keys with
  | nil =>
      constructor
      · rintro ⟨left, hLeft, -⟩
        cases hLeft
      · intro hMatch
        cases hMatch
  | cons key keys ih =>
      by_cases hAnswers : Answers c message signature key
      · rw [sublistForall₂_cons_of_rel hAnswers, ← hRest]
        rcases hAnswers with ⟨hSame, hVerify⟩
        rw [satisfyWithKeys, if_neg (not_not.mpr hSame)]
        rcases hVerify with hVerify | hVerify
        · simp [hVerify]
        · simp [hVerify]
      · rw [sublistForall₂_cons_of_not_rel hAnswers, ← ih]
        have hSkip :
            satisfyWithKeys c message signature
                (key :: keys) =
              satisfyWithKeys c message signature keys := by
          rw [satisfyWithKeys]
          by_cases hSame : key.scheme = signature.scheme
          · rw [if_neg (not_not.mpr hSame)]
            have hNot := verify_ne_reserved hBackEnds hScheme
              key.bytes signature.bytes message
            have hNeither := fun hVerify =>
              hAnswers ⟨hSame, hVerify⟩
            revert hNot hNeither
            cases c.verify signature.scheme key.bytes
              signature.bytes message <;> simp
          · rw [if_pos hSame]
        rw [hSkip]

/- The walk accepts exactly when there is a matching. -/
theorem satisfiesThreshold_eq_ok
    (hBackEnds : c.BackEndsAnswer)
    (keys : List PublicKey)
    {signatures : List Signature}
    (hSchemes :
      ∀ signature ∈ signatures,
        signature.scheme ≠ schemeReserved) :
    satisfiesThreshold c message keys signatures = .ok () ↔
      List.SublistForall₂ (Answers c message) signatures
        keys := by
  induction signatures generalizing keys with
  | nil =>
      constructor
      · exact fun _ => .nil
      · exact fun _ => rfl
  | cons signature rest ih =>
      rw [List.forall_mem_cons] at hSchemes
      exact satisfyWithKeys_bind_eq_ok hBackEnds hSchemes.1
        (fun keys => ih keys hSchemes.2) keys

/- The key that satisfied a signature is consumed. -/
theorem satisfyWithKeys_ok
    {signature : Signature}
    {keys left : List PublicKey}
    (hDone :
      satisfyWithKeys c message signature keys = .ok left) :
    ∃ skipped key,
      keys = skipped ++ key :: left ∧
        Answers c message signature key := by
  induction keys with
  | nil => cases hDone
  | cons key keys ih =>
      have hSkipped :
          satisfyWithKeys c message signature keys =
              .ok left →
            ∃ skipped found,
              key :: keys = skipped ++ found :: left ∧
                Answers c message signature found := by
        intro hRest
        rcases ih hRest with
          ⟨skipped, found, hKeys, hAnswers⟩
        exact ⟨key :: skipped, found, by rw [hKeys]; rfl,
          hAnswers⟩
      rw [satisfyWithKeys] at hDone
      split at hDone
      · exact hSkipped hDone
      · rename_i hScheme
        have hSame := not_not.mp hScheme
        split at hDone
        · rename_i hVerify
          cases hDone
          exact ⟨[], key, rfl, hSame, Or.inl hVerify⟩
        · rename_i hVerify
          cases hDone
          exact ⟨[], key, rfl, hSame, Or.inr hVerify⟩
        · exact hSkipped hDone
        · exact hSkipped hDone
        · cases hDone

/- Whatever the back ends say, acceptance has a matching. -/
theorem satisfiesThreshold_matched
    {keys : List PublicKey}
    {signatures : List Signature}
    (hAccepted :
      satisfiesThreshold c message keys signatures =
        .ok ()) :
    List.SublistForall₂ (Answers c message) signatures
      keys := by
  induction signatures generalizing keys with
  | nil => exact .nil
  | cons signature rest ih =>
      rw [satisfiesThreshold, except_bind_eq_ok] at hAccepted
      rcases hAccepted with ⟨left, hFirst, hRest⟩
      rcases satisfyWithKeys_ok hFirst with
        ⟨skipped, key, rfl, hAnswers⟩
      have hHere := List.SublistForall₂.cons hAnswers
        (ih hRest)
      clear hFirst
      induction skipped with
      | nil => exact hHere
      | cons other skipped hAgain =>
          exact .cons_right hAgain

/-
  One arrangement of the signatures at most is accepted,
  where none is waved through and each verifies under one
  key of the condition.
-/
theorem satisfiesThreshold_arrangement
    {witness : Witness}
    (hKnown :
      ∀ signature ∈ witness.signatures,
        ∀ key ∈ witness.condition.keys,
          c.verify signature.scheme key.bytes
              signature.bytes message ≠
            .unknownScheme)
    (hOnce :
      ∀ signature ∈ witness.signatures,
        ∀ first second :
            Fin witness.condition.keys.length,
          c.verify signature.scheme
                (witness.condition.keys.get first).bytes
                signature.bytes message =
              .valid →
            c.verify signature.scheme
                (witness.condition.keys.get second).bytes
                signature.bytes message =
              .valid →
              first = second)
    (hAccepted :
      satisfiesThreshold c message witness.condition.keys
          witness.signatures =
        .ok ())
    {arranged : List Signature}
    (hPerm : arranged.Perm witness.signatures)
    (hOther : arranged ≠ witness.signatures) :
    satisfiesThreshold c message witness.condition.keys
        arranged ≠
      .ok () := by
  intro hToo
  have hValid : ∀ signature ∈ witness.signatures,
      ∀ key ∈ witness.condition.keys,
        Answers c message signature key →
          c.verify signature.scheme key.bytes
              signature.bytes message =
            .valid := by
    intro signature hSignature key hKey hAnswers
    rcases hAnswers.2 with hVerify | hUnknown
    · exact hVerify
    · exact absurd hUnknown
        (hKnown signature hSignature key hKey)
  apply hOther
  apply eq_of_perm_of_sublistForall₂ _ hPerm
    (satisfiesThreshold_matched hAccepted)
    (satisfiesThreshold_matched hToo)
  intro signature hSignature first second hFirst hSecond
  apply hOnce signature hSignature
  · exact hValid signature hSignature _
      (List.get_mem ..) hFirst
  · exact hValid signature hSignature _
      (List.get_mem ..) hSecond

end Threshold

/- Two owners, each with a key of their own. -/
namespace TwoOwners

/- A signature is good for the key it starts with. -/
def backEnds : Crypto :=
  { sha256 := Bytes32.ofList
    verifySchnorr := fun key signature _ =>
      if signature.take 32 = key then .valid else .invalid
    verifyWithOpenSsl := fun _ _ _ _ => .invalid }

/- A key that one byte tells apart. -/
def ownerKey
    (owner : UInt8) : PublicKey :=
  ⟨schemeSchnorrSecp256k1, List.replicate 32 owner⟩

/- A signature of that owner. -/
def signedBy
    (owner : UInt8) : Signature :=
  ⟨schemeSchnorrSecp256k1, List.replicate 64 owner⟩

theorem swapped_signatures_refused :
    satisfiesThreshold backEnds Bytes32.zero
        [ownerKey 1, ownerKey 2, ownerKey 3]
        [signedBy 3, signedBy 1] ≠
      .ok () :=
  @satisfiesThreshold_arrangement backEnds Bytes32.zero
    ⟨⟨conditionVersionThreshold, 2,
      [ownerKey 1, ownerKey 2, ownerKey 3]⟩,
      [signedBy 1, signedBy 3]⟩
    (by decide) (by decide) (by decide)
    [signedBy 3, signedBy 1] (List.Perm.swap ..)
    (by decide)

end TwoOwners

------------------------------------------------------------
-- Inputs
------------------------------------------------------------

/-
  What the coin asks of the input that spends it.  Versions
  that have no rules yet ask for nothing.
-/
def Authorised
    (c : Crypto)
    (params : ChainParams)
    (tx : Transaction)
    (index : Nat)
    (coin : Coin)
    (witness : Witness) : Prop :=
  coin.output.lock.version ≠ lockVersionUnspendable ∧
    (coin.output.lock.version =
        lockVersionConditionCommitment →
      coin.output.lock.program =
          (spendConditionCommitment c
            witness.condition).bytes ∧
        (witness.condition.version =
            conditionVersionThreshold →
          SignedInOrder c
            (signatureHash c params.chainId tx
              (computeSigHashMidstates c tx)
              (UInt32.ofNat index) coin.output.amount
              witness.condition)
            witness))

section Authorisation

variable {c : Crypto} {params : ChainParams}
variable {tx : Transaction}

theorem authoriseInput_eq_ok
    (hBackEnds : c.BackEndsAnswer)
    (index : Nat)
    (coin : Coin)
    {witness : Witness}
    (hSchemes :
      ∀ signature ∈ witness.signatures,
        signature.scheme ≠ schemeReserved) :
    authoriseInput c params tx
          (computeSigHashMidstates c tx) index coin.output
          witness =
        .ok () ↔
      Authorised c params tx index coin witness := by
  unfold authoriseInput Authorised Lock.isUnspendable
    matchesConditionCommitment
  by_cases hUnspendable :
      coin.output.lock.version = lockVersionUnspendable
  · simp [hUnspendable]
  rw [if_neg (by simpa using hUnspendable)]
  by_cases hLock :
      coin.output.lock.version =
        lockVersionConditionCommitment
  case neg => simp [hUnspendable, hLock]
  rw [if_neg (not_not.mpr hLock)]
  by_cases hCommits :
      coin.output.lock.program =
        (spendConditionCommitment c witness.condition).bytes
  case neg => simp [hLock, hCommits]
  rw [if_neg (by simp [hCommits])]
  by_cases hCondition :
      witness.condition.version = conditionVersionThreshold
  case neg => simp [hUnspendable, hCommits, hCondition]
  rw [if_neg (not_not.mpr hCondition),
    satisfiesThreshold_eq_ok hBackEnds _ hSchemes,
    sublistForall₂_iff_strictMono]
  constructor
  · exact fun hSigned =>
      ⟨hUnspendable, fun _ => ⟨hCommits, fun _ => hSigned⟩⟩
  · exact fun hAsked => (hAsked.2 hLock).2 hCondition

/- The inputs are judged one by one, at their own index. -/
theorem authoriseInputs_eq_ok
    (hBackEnds : c.BackEndsAnswer)
    {coins : List Coin}
    {witnesses : List Witness}
    (hLength : coins.length = witnesses.length)
    (hSchemes :
      ∀ witness ∈ witnesses,
        ∀ signature ∈ witness.signatures,
          signature.scheme ≠ schemeReserved)
    (start : Nat) :
    authoriseInputs c params tx
          (computeSigHashMidstates c tx) start coins
          witnesses =
        .ok () ↔
      ∀ index coin witness,
        coins[index]? = some coin →
          witnesses[index]? = some witness →
            Authorised c params tx (start + index) coin
              witness := by
  induction coins generalizing witnesses start with
  | nil =>
      rcases List.length_eq_zero_iff.mp hLength.symm with rfl
      simp [authoriseInputs]
  | cons coin coins ih =>
      cases witnesses with
      | nil => cases hLength
      | cons witness witnesses =>
          rw [List.forall_mem_cons] at hSchemes
          rw [authoriseInputs, except_bind_eq_ok]
          simp only [exists_const_iff,
            ih (Nat.succ.inj hLength) hSchemes.2,
            authoriseInput_eq_ok hBackEnds start coin
              hSchemes.1]
          constructor
          · rintro ⟨-, hFirst, hRest⟩ index
            cases index with
            | zero =>
                rintro _ _ ⟨⟩ ⟨⟩
                exact hFirst
            | succ index =>
                intro other found hCoin hWitness
                rw [← Nat.add_assoc, Nat.add_right_comm]
                exact hRest index other found hCoin hWitness
          · intro hAll
            refine ⟨⟨()⟩, hAll 0 coin witness rfl rfl, ?_⟩
            intro index other found hCoin hWitness
            rw [Nat.add_right_comm, Nat.add_assoc]
            exact hAll (index + 1) other found hCoin hWitness

/- What a transaction that passed has in its witnesses. -/
theorem witnesses_of_checkTransaction
    (hCoinbase : tx.isCoinbase = false)
    (hPasses : checkTransaction tx params = .ok ()) :
    tx.witnesses.length = tx.inputs.length ∧
      ∀ witness ∈ tx.witnesses,
        ∀ signature ∈ witness.signatures,
          signature.scheme ≠ schemeReserved := by
  rcases checkTransaction_eq_ok.mp hPasses with
    ⟨-, -, -, -, hForm, -, hWitnesses, -⟩
  have hNotCoinbase :=
    (checkTransactionForm_eq_ok.mp hForm).2 hCoinbase
  refine ⟨hNotCoinbase.2.1, ?_⟩
  intro witness hWitness
  have hPassed := (hWitnesses hCoinbase).2 witness hWitness
  exact (checkWitness_eq_ok.mp hPassed).2.1

/-
  The check accepts exactly the spends for which there is
  one coin an input and every coin gets what it asks for.
-/
theorem checkSpendAuthorisation_iff
    (hBackEnds : c.BackEndsAnswer)
    (hCoinbase : tx.isCoinbase = false)
    (hPasses : checkTransaction tx params = .ok ())
    (spentCoins : List Coin) :
    checkSpendAuthorisation c tx spentCoins params =
        .ok () ↔
      spentCoins.length = tx.inputs.length ∧
        ∀ index coin witness,
          spentCoins[index]? = some coin →
            tx.witnesses[index]? = some witness →
              Authorised c params tx index coin witness := by
  rcases witnesses_of_checkTransaction hCoinbase hPasses with
    ⟨hCount, hSchemes⟩
  unfold checkSpendAuthorisation
  simp only [except_bind_eq_ok, rejectIf_eq_ok, hCoinbase,
    bne_eq_false_iff_eq, hCount, exists_const_iff, true_and]
  constructor
  · rintro ⟨-, -, hLength, -, hDone⟩
    refine ⟨hLength, ?_⟩
    have hInputs := (authoriseInputs_eq_ok hBackEnds
      (hLength.trans hCount.symm) hSchemes 0).mp hDone
    simpa only [Nat.zero_add] using hInputs
  · rintro ⟨hLength, hInputs⟩
    refine ⟨⟨()⟩, ⟨()⟩, hLength, ⟨()⟩, ?_⟩
    apply (authoriseInputs_eq_ok hBackEnds
      (hLength.trans hCount.symm) hSchemes 0).mpr
    simpa only [Nat.zero_add] using hInputs

end Authorisation

/-
  One of two keys must sign, under schemes that this build
  does not know.  The second one did.
-/
namespace UnknownScheme

/- Schemes that nobody knows. -/
def condition : SpendCondition :=
  { version := conditionVersionThreshold
    threshold := 1
    keys := [⟨7, [1, 2]⟩, ⟨9, [3]⟩] }

/- Spends one coin under that condition. -/
def tx : Transaction :=
  { version := 1
    inputs := [⟨⟨Bytes32.zero, 0⟩, 0⟩]
    outputs := [⟨40, ⟨lockVersionConditionCommitment, []⟩⟩]
    locktime := 0
    witnesses := [⟨condition, [⟨9, [5, 6]⟩]⟩]
    coinbaseData := [] }

/- The coin, locked by the condition's commitment. -/
def coin : Coin :=
  { output :=
      { amount := 50
        lock :=
          { version := lockVersionConditionCommitment
            program :=
              (spendConditionCommitment .reference
                condition).bytes } }
    height := 1
    isCoinbase := false }

theorem checkSpendAuthorisation_second_key :
    SignedInOrder .reference
      (signatureHash .reference regtestParams.chainId tx
        (computeSigHashMidstates .reference tx) 0 50
        condition)
      ⟨condition, [⟨9, [5, 6]⟩]⟩ := by
  have hAccepted :
      checkSpendAuthorisation .reference tx [coin]
        regtestParams = .ok () := by
    decide +kernel
  have hAuthorised :=
    ((checkSpendAuthorisation_iff
      ⟨fun _ _ _ => by simp [Crypto.reference],
        fun _ _ _ _ => by simp [Crypto.reference]⟩
      (by decide) (by decide +kernel) [coin]).mp
        hAccepted).2 0 coin _ rfl rfl
  exact (hAuthorised.2 rfl).2 rfl

end UnknownScheme

end Amarian
