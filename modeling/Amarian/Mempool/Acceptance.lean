import Amarian.Consensus.Rules
import Amarian.Mempool.Sound

/-
  What the pool admits, and what it keeps when it does.

  Key definitions include:
    * `Mempool.Admits`
    * `Mempool.ConflictsWith`

  Key theorems include:
    * `Mempool.judge_eq_ok`
    * `Mempool.Sound.mem_doomedBy_iff`
    * `Mempool.Admits.fits`
-/

------------------------------------------------------------
-- The Verdict
------------------------------------------------------------

namespace Amarian

theorem underRule_eq_ok
    {α : Type}
    {verdict : Except ValidationError α}
    {a : α} :
    Mempool.underRule verdict = .ok a ↔ verdict = .ok a := by
  cases verdict with
  | error rule =>
      simp [Mempool.underRule, Except.mapError]
  | ok b => simp [Mempool.underRule, Except.mapError]

@[simp] theorem refuseIf_eq_ok
    {condition : Bool}
    {reason : RejectReason} :
    Mempool.refuseIf condition reason = .ok () ↔
      condition = false := by
  cases condition with
  | true => simp [Mempool.refuseIf, Mempool.refuse]
  | false => simp [Mempool.refuseIf]

namespace Mempool

/- Every reason to refuse an arrival was looked for. -/
structure Admits
    (c : Crypto)
    (pool : Mempool)
    (tx : Transaction)
    (spentCoins : List Coin)
    (spendHeight : UInt32)
    (params : ChainParams)
    (fee : Int64) : Prop where
  spending : tx.isCoinbase = false
  fresh : pool.contains (tx.wtxid c) = false
  shape : checkTransaction tx params = .ok ()
  inputs :
    checkTransactionInputs c tx spentCoins spendHeight
      params = .ok fee
  heavy : tx.weight ≠ 0
  light : tx.weight ≤ maxMempoolWeight
  relayed : ¬fee < Int64.ofNat tx.weight * minRelayFeerate
  few : (pool.doomedBy tx).length ≤ maxReplacementEvictions
  pays :
    pool.doomedBy tx ≠ [] →
      checkReplacement pool tx fee = .ok ()
  parents :
    ∀ parent ∈ pool.parentsFor tx, parent ∉ pool.doomedBy tx
  ancestors :
    (pool.ancestorsFor tx).length ≤ maxMempoolAncestors
  descendants :
    ∀ id ∈ pool.ancestorsFor tx,
      (pool.survivingDescendants tx id).length + 1 ≤
        maxMempoolDescendants

theorem judge_eq_ok
    {c : Crypto}
    {pool : Mempool}
    {tx : Transaction}
    {spentCoins : List Coin}
    {spendHeight : UInt32}
    {params : ChainParams}
    {admission : Admission} :
    pool.judge c tx spentCoins spendHeight params =
        .ok admission ↔
      pool.Admits c tx spentCoins spendHeight params
          admission.fee ∧
        admission.doomed = pool.doomedBy tx ∧
        admission.parents = pool.parentsFor tx := by
  have hRest :
      ∀ fee,
        (if !(pool.doomedBy tx).isEmpty then
            checkReplacement pool tx fee
          else
            pure ()) = .ok () ↔
          (pool.doomedBy tx ≠ [] →
            checkReplacement pool tx fee = .ok ()) := by
    intro fee
    cases pool.doomedBy tx with
    | nil => simp [pure, Except.pure]
    | cons id ids => simp
  have hParents :
      (if (pool.parentsFor tx).any
            (· ∈ pool.doomedBy tx) then
          (.error
            { reason := .missingOrSpentInput
              rule := some .txInputMissingOrSpent } :
            Except Rejection Unit)
        else
          pure ()) = .ok () ↔
        ∀ parent ∈ pool.parentsFor tx,
          parent ∉ pool.doomedBy tx := by
    rw [← not_iff_not]
    simp [pure, Except.pure]
  have hJoin :
      ∀ {α : Type} (condition : Bool)
        (check : Except Rejection Unit)
        (rest : Except Rejection α),
        (if condition then check >>= fun _ => rest
          else rest) =
          (if condition then check else pure ()) >>=
            fun _ => rest := by
    intro α condition check rest
    cases condition with
    | true => rfl
    | false => rfl
  unfold judge
  simp only [hJoin]
  rw [except_check_eq_ok, except_check_eq_ok,
    except_check_eq_ok, refuseIf_eq_ok, refuseIf_eq_ok,
    underRule_eq_ok, except_bind_eq_ok]
  simp only [except_check_eq_ok, refuseIf_eq_ok,
    underRule_eq_ok, hParents, hRest, beq_eq_false_iff_ne,
    decide_eq_false_iff_not, List.any_eq_false,
    decide_eq_true_eq, gt_iff_lt, Nat.not_lt]
  constructor
  · rintro ⟨hSpending, hFresh, hShape, fee, hFee, hHeavy,
      hLight, hRelayed, hFew, hPays, hSurvive, hAncestors,
      hDescendants, hAdmission⟩
    cases hAdmission
    exact ⟨⟨hSpending, hFresh, hShape, hFee, hHeavy, hLight,
      hRelayed, hFew, hPays, hSurvive, hAncestors,
      hDescendants⟩, rfl, rfl⟩
  · rintro ⟨hAdmits, hDoomed, hFor⟩
    refine ⟨hAdmits.spending, hAdmits.fresh, hAdmits.shape,
      admission.fee, hAdmits.inputs, hAdmits.heavy,
      hAdmits.light, hAdmits.relayed, hAdmits.few,
      hAdmits.pays, hAdmits.parents, hAdmits.ancestors,
      hAdmits.descendants, ?_⟩
    rw [← hDoomed, ← hFor]
    rfl

/- The relay minimum makes every fee positive. -/
theorem Admits.fee_pos
    {c : Crypto}
    {pool : Mempool}
    {tx : Transaction}
    {spentCoins : List Coin}
    {spendHeight : UInt32}
    {params : ChainParams}
    {fee : Int64}
    (hAdmits :
      pool.Admits c tx spentCoins spendHeight params fee) :
    0 < fee.toInt := by
  have hHeavy := hAdmits.heavy
  have hLight := hAdmits.light
  have hRelayed := hAdmits.relayed
  have hWeight :
      (Int64.ofNat tx.weight).toInt = tx.weight := by
    apply Int64.toInt_ofNat_of_lt
    unfold maxMempoolWeight at hLight
    omega
  have hOne : Int64.ofNat tx.weight * minRelayFeerate =
      Int64.ofNat tx.weight :=
    Int64.mul_one _
  rw [hOne, Int64.lt_iff_toInt_lt, hWeight] at hRelayed
  omega

/- A coin that is not in the pool is read off the base. -/
theorem resolveInputs_singleton
    {pool : Mempool}
    {tx : Transaction}
    {base : Utxo}
    {spendHeight : UInt32}
    {input : TxInput}
    {coin : Coin}
    (hInputs : tx.inputs = [input])
    (hCoin : base input.outpoint = some coin) :
    pool.resolveInputs tx base spendHeight =
      some [coin] := by
  simp [resolveInputs, hInputs, hCoin]

------------------------------------------------------------
-- Relatives Of An Arrival
------------------------------------------------------------

section Relatives

variable {pool : Mempool} {tx : Transaction}
variable {id start : Hash256}

theorem mem_directConflicts :
    id ∈ pool.directConflicts tx ↔
      ∃ input ∈ tx.inputs,
        pool.spentBy input.outpoint = some id := by
  rw [directConflicts, List.mem_dedup, List.mem_filterMap]

theorem mem_doomedBy :
    id ∈ pool.doomedBy tx ↔
      ∃ conflict ∈ pool.directConflicts tx,
        id ∈ pool.descendantsOf conflict := by
  rw [doomedBy, List.mem_dedup, List.mem_flatMap]

theorem mem_parentsFor :
    id ∈ pool.parentsFor tx ↔
      ∃ input ∈ tx.inputs,
        pool.byTxid input.outpoint.txid = some id := by
  rw [parentsFor, List.mem_dedup, List.mem_filterMap]

theorem mem_ancestorsFor :
    id ∈ pool.ancestorsFor tx ↔
      (∃ parent ∈ pool.parentsFor tx,
        id ∈ pool.ancestorsOf parent) ∧
        id ∉ pool.doomedBy tx := by
  rw [ancestorsFor, List.mem_dedup, List.mem_filter,
    List.mem_flatMap, decide_eq_true_eq]

theorem mem_survivingDescendants :
    id ∈ pool.survivingDescendants tx start ↔
      id ∈ pool.descendantsOf start ∧
        id ≠ start ∧ id ∉ pool.doomedBy tx := by
  rw [survivingDescendants, List.mem_filter,
    decide_eq_true_eq]

theorem encard_le_length
    {P : Hash256 → Prop}
    {ids : List Hash256}
    (hCovered : ∀ id, P id → id ∈ ids) :
    {id | P id}.encard ≤ ids.length := by
  calc
    {id | P id}.encard
        ≤ (ids.toFinset : Set Hash256).encard := by
          apply Set.encard_le_encard
          intro id hId
          exact List.mem_toFinset.mpr (hCovered id hId)
    _ = ids.toFinset.card :=
          Set.encard_coe_eq_coe_finsetCard _
    _ ≤ ids.length :=
          Nat.cast_le.mpr (List.toFinset_card_le ids)

variable {c : Crypto}

/- What an arrival conflicts with is displaced. -/
theorem Sound.mem_doomedBy_of_spentBy
    (hSound : pool.Sound c)
    {input : TxInput}
    (hInput : input ∈ tx.inputs)
    (hSpent : pool.spentBy input.outpoint = some id) :
    id ∈ pool.doomedBy tx := by
  rcases (hSound.spends _ _).mp hSpent with
    ⟨links, hFound, -⟩
  refine mem_doomedBy.mpr ⟨id,
    mem_directConflicts.mpr ⟨input, hInput, hSpent⟩, ?_⟩
  exact mem_reached.mpr
    ⟨contains_iff.mpr ⟨links, hFound⟩, .refl⟩

/- No link goes round. -/
theorem Sound.not_beyond_self
    (hSound : pool.Sound c)
    (id : Hash256) :
    ¬pool.Beyond EntryInternal.parents id id := by
  rcases hSound.ranked with ⟨rank, hRank⟩
  have hFalls :
      ∀ {id other : Hash256},
        pool.Beyond EntryInternal.parents id other →
          rank other < rank id := by
    intro id other hBeyond
    induction hBeyond with
    | single hLink => exact hRank _ _ hLink
    | tail _ hLink ih => exact (hRank _ _ hLink).trans ih
  intro hBeyond
  exact Nat.lt_irrefl _ (hFalls hBeyond)

end Relatives

------------------------------------------------------------
-- What Is Displaced
------------------------------------------------------------

/- An entry that spends what the transaction spends. -/
def ConflictsWith
    (pool : Mempool)
    (tx : Transaction)
    (id : Hash256) : Prop :=
  ∃ links, pool.entries.lookup id = some links ∧
    ∃ input ∈ tx.inputs, links.entry.spends input.outpoint

section Displaced

variable {c : Crypto} {pool : Mempool} {tx : Transaction}

theorem Sound.mem_directConflicts_iff
    (hSound : pool.Sound c)
    (id : Hash256) :
    id ∈ pool.directConflicts tx ↔
      pool.ConflictsWith tx id := by
  rw [mem_directConflicts]
  constructor
  · rintro ⟨input, hInput, hSpent⟩
    rcases (hSound.spends _ _).mp hSpent with
      ⟨links, hFound, hSpends⟩
    exact ⟨links, hFound, input, hInput, hSpends⟩
  · rintro ⟨links, hFound, input, hInput, hSpends⟩
    exact ⟨input, hInput,
      (hSound.spends _ _).mpr ⟨links, hFound, hSpends⟩⟩

theorem Sound.mem_doomedBy_iff
    (hSound : pool.Sound c)
    (id : Hash256) :
    id ∈ pool.doomedBy tx ↔
      ∃ conflict, pool.ConflictsWith tx conflict ∧
        pool.Reaches EntryInternal.children conflict id := by
  rw [mem_doomedBy]
  constructor
  · rintro ⟨conflict, hConflict, hMember⟩
    exact ⟨conflict,
      (hSound.mem_directConflicts_iff conflict).mp hConflict,
      (mem_reached.mp hMember).2⟩
  · rintro ⟨conflict, hConflict, hReaches⟩
    refine ⟨conflict,
      (hSound.mem_directConflicts_iff conflict).mpr
        hConflict, ?_⟩
    rcases hConflict with ⟨links, hFound, -⟩
    exact mem_reached.mpr
      ⟨contains_iff.mpr ⟨links, hFound⟩, hReaches⟩

/- A child of a displaced entry is displaced. -/
theorem Sound.doomedBy_closed
    (hSound : pool.Sound c)
    {id child : Hash256}
    (hDoomed : id ∈ pool.doomedBy tx)
    (hChild :
      child ∈ pool.linked EntryInternal.children id) :
    child ∈ pool.doomedBy tx := by
  rcases (hSound.mem_doomedBy_iff id).mp hDoomed with
    ⟨conflict, hConflict, hReaches⟩
  exact (hSound.mem_doomedBy_iff child).mpr
    ⟨conflict, hConflict, hReaches.tail hChild⟩

end Displaced

------------------------------------------------------------
-- Room For An Arrival
------------------------------------------------------------

section Arrival

variable {c : Crypto} {pool : Mempool} {tx : Transaction}
variable {spentCoins : List Coin} {spendHeight : UInt32}
variable {params : ChainParams} {fee : Int64}

/- The links left are some of those there were. -/
theorem beyond_unlinkAll
    (hLinked : pool.Linked)
    {side : EntryInternal → List Hash256}
    (hSide :
      ∀ ids links,
        side (dropAll ids links) =
          (side links).filter (· ∉ ids))
    {ids : List Hash256}
    {id other : Hash256}
    (hBeyond : (pool.unlinkAll ids).Beyond side id other) :
    other ∉ ids ∧ pool.Beyond side id other := by
  have hStep :
      ∀ {id other : Hash256},
        other ∈ (pool.unlinkAll ids).linked side id →
          other ∉ ids ∧ other ∈ pool.linked side id :=
    fun hLink =>
      ((hLinked.mem_linked_unlinkAll hSide ids _ _).mp
        hLink).2
  constructor
  · rcases Relation.TransGen.tail'_iff.mp hBeyond with
      ⟨last, -, hLink⟩
    exact (hStep hLink).1
  · exact Relation.TransGen.mono
      (fun _ _ hLink => (hStep hLink).2) _ _ hBeyond

theorem Admits.above
    (hSound : pool.Sound c)
    (hAdmits :
      pool.Admits c tx spentCoins spendHeight params fee)
    {other : Hash256}
    (hAbove :
      (pool.unlinkAll (pool.doomedBy tx)).Above
        (pool.parentsFor tx) other) :
    other ∈ pool.ancestorsFor tx := by
  rcases hAbove with ⟨parent, hParent, hReaches⟩
  rcases mem_parentsFor.mp hParent with
    ⟨input, hInput, hIndexed⟩
  rcases hSound.indexed _ _ hIndexed with
    ⟨links, hFound, -⟩
  have hContains := contains_iff.mpr ⟨links, hFound⟩
  rcases Relation.reflTransGen_iff_eq_or_transGen.mp
    hReaches with rfl | hBeyond
  · refine mem_ancestorsFor.mpr
      ⟨⟨other, hParent, ?_⟩, hAdmits.parents other hParent⟩
    exact mem_reached.mpr ⟨hContains, .refl⟩
  · rcases beyond_unlinkAll hSound.linked parents_dropAll
      hBeyond with ⟨hLeft, hBefore⟩
    refine mem_ancestorsFor.mpr
      ⟨⟨parent, hParent, ?_⟩, hLeft⟩
    exact mem_reached.mpr
      ⟨hContains, hBefore.to_reflTransGen⟩

theorem Sound.survives
    (hSound : pool.Sound c)
    {id other : Hash256}
    (hBeyond :
      (pool.unlinkAll (pool.doomedBy tx)).Beyond
        EntryInternal.children id other) :
    other ∈ pool.survivingDescendants tx id := by
  rcases beyond_unlinkAll hSound.linked children_dropAll
    hBeyond with ⟨hLeft, hBefore⟩
  refine mem_survivingDescendants.mpr ⟨?_, ?_, hLeft⟩
  · rcases Relation.TransGen.head'_iff.mp hBefore with
      ⟨next, hLink, -⟩
    rcases mem_linked.mp hLink with ⟨links, hFound, -⟩
    exact mem_reached.mpr
      ⟨contains_iff.mpr ⟨links, hFound⟩,
        hBefore.to_reflTransGen⟩
  · rintro rfl
    exact hSound.not_beyond_self other
      (hSound.linked.beyond_comm.mp hBefore)

theorem Admits.fits
    (hSound : pool.Sound c)
    (hAdmits :
      pool.Admits c tx spentCoins spendHeight params fee)
    (now : Int64) :
    (pool.unlinkAll (pool.doomedBy tx)).Fits c
      (entryFor c tx fee now) (pool.parentsFor tx) := by
  constructor
  · have hValid := (isValidAmount_iff _).mp
      (transactionFee_valid
        (checkTransactionInputs_fee hAdmits.inputs))
    exact
      { wtxid := rfl
        key := rfl
        txid := rfl
        weight := rfl
        heavy := Nat.pos_of_ne_zero hAdmits.heavy
        light := hAdmits.light
        inputs :=
          (checkTransaction_eq_ok.mp hAdmits.shape).1
        fee := hAdmits.fee_pos
        afford := hValid.2 }
  · have hFresh := hAdmits.fresh
    rw [contains, Option.isSome_eq_false_iff,
      Option.isNone_iff_eq_none] at hFresh
    change (pool.unlinkAll
      (pool.doomedBy tx)).entries.lookup (tx.wtxid c) = none
    rw [hSound.linked.lookup_unlinkAll, hFresh]
    simp
  · intro parent
    rw [mem_parentsFor]
    constructor
    · rintro ⟨input, hInput, hIndexed⟩
      refine ⟨input, hInput, ?_⟩
      rw [hSound.byTxid_unlinkAll]
      exact ⟨hAdmits.parents parent
        (mem_parentsFor.mpr ⟨input, hInput, hIndexed⟩),
        hIndexed⟩
    · rintro ⟨input, hInput, hIndexed⟩
      rw [hSound.byTxid_unlinkAll] at hIndexed
      exact ⟨input, hInput, hIndexed.2⟩
  · intro outpoint hSpends
    rcases List.mem_map.mp hSpends with
      ⟨input, hInput, rfl⟩
    rw [Option.eq_none_iff_forall_ne_some]
    intro spender hSpent
    rw [hSound.spentBy_unlinkAll] at hSpent
    exact hSpent.1
      (hSound.mem_doomedBy_of_spentBy hInput hSpent.2)
  · apply le_trans (encard_le_length fun other hAbove =>
      hAdmits.above hSound hAbove)
    exact Nat.cast_le.mpr hAdmits.ancestors
  · intro other hAbove
    have hRoom :=
      hAdmits.descendants other (hAdmits.above hSound hAbove)
    calc
      _ ≤ ((pool.survivingDescendants tx
            other).length : ENat) + 1 := by
          gcongr
          exact encard_le_length fun _ hBeyond =>
            hSound.survives hBeyond
      _ ≤ maxMempoolDescendants := by
          exact_mod_cast hRoom

end Arrival

end Mempool

end Amarian
