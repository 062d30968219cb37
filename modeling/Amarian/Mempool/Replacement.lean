import Amarian.Mempool.Arrivals
import Amarian.Mempool.Exactness

/-
  What a replacement takes out of the pool, and what it pays.

  The displaced entries are at most a hundred, so the sums of
  their fees do not wrap and the comparison of the rates is
  that of the exact fractions.  Only the total of the whole
  pool can wrap.

  Key definitions include:
    * `Mempool.Replaces`
    * `Mempool.PaysFor`

  Key theorems include:
    * `Mempool.replacement_pays_iff`
-/

------------------------------------------------------------
-- Sums Over Some Entries
------------------------------------------------------------

namespace Amarian

namespace Mempool

/- What an entry contributes to a sum, nothing if absent. -/
def amountAt
    (amount : Entry → Int)
    (pool : Mempool)
    (id : Hash256) : Int :=
  ((pool.find id).map amount).getD 0

/- The fee of an entry, zero if it is not there. -/
def feeAt : Mempool → Hash256 → Int :=
  amountAt fun entry => entry.fee.toInt

/- The weight of an entry, zero if it is not there. -/
def weightAt : Mempool → Hash256 → Int :=
  amountAt fun entry => entry.weight

/- A sum over the pool, parted by who leaves. -/
theorem total_unlinkAll
    (amount : Entry → Int)
    {pool : Mempool}
    (hLinked : pool.Linked)
    {ids : List Hash256}
    (hNodup : ids.Nodup) :
    Table.total (fun links => amount links.entry)
        pool.entries =
      (ids.map (pool.amountAt amount)).sum +
        Table.total (fun links => amount links.entry)
          (pool.unlinkAll ids).entries := by
  induction ids generalizing pool with
  | nil => simp [unlinkAll]
  | cons id ids ih =>
      rw [List.nodup_cons] at hNodup
      have hRest := ih (hLinked.unlink id) hNodup.2
      have hSame :
          ids.map ((pool.unlink id).amountAt amount) =
            ids.map (pool.amountAt amount) := by
        apply List.map_congr_left
        intro other hOther
        have hNe : other ≠ id := by
          rintro rfl
          exact hNodup.1 hOther
        rw [amountAt, amountAt, find_unlink hLinked,
          if_neg hNe]
      rw [hSame] at hRest
      change _ = _ + Table.total _
        ((pool.unlink id).unlinkAll ids).entries
      rw [List.map_cons, List.sum_cons]
      cases hFound : pool.entries.lookup id with
      | none =>
          have hNone : pool.amountAt amount id = 0 := by
            rw [amountAt, find, hFound]
            rfl
          rw [unlink_of_absent hFound] at hRest ⊢
          omega
      | some doomed =>
          have hHere :
              pool.amountAt amount id =
                amount doomed.entry := by
            rw [amountAt, find, hFound]
            rfl
          have hOne := total_unlink amount hFound
          omega

section Bounded

variable {c : Crypto} {pool : Mempool}

theorem Sound.feeAt_range
    (hSound : pool.Sound c)
    (id : Hash256) :
    0 ≤ pool.feeAt id ∧
      pool.feeAt id ≤ 83999999932170000 := by
  unfold feeAt amountAt find
  cases hFound : pool.entries.lookup id with
  | none => simp
  | some links =>
      have hAdmitted := hSound.admitted id links hFound
      have hMax : links.entry.fee.toInt ≤ maxMoney.toInt :=
        hAdmitted.afford
      have hFee := hAdmitted.fee
      exact ⟨Int.le_of_lt hFee, hMax⟩

theorem Sound.weightAt_range
    (hSound : pool.Sound c)
    (id : Hash256) :
    0 ≤ pool.weightAt id ∧ pool.weightAt id ≤ 50000000 := by
  unfold weightAt amountAt find
  cases hFound : pool.entries.lookup id with
  | none => simp
  | some links =>
      have hLight :=
        (hSound.admitted id links hFound).light
      unfold maxMempoolWeight at hLight
      simp only [Option.map_some, Option.getD_some]
      omega

theorem Sound.weightAt_pos
    (hSound : pool.Sound c)
    {id : Hash256}
    (hContains : pool.contains id = true) :
    0 < pool.weightAt id := by
  rcases contains_iff.mp hContains with ⟨links, hFound⟩
  unfold weightAt amountAt find
  rw [hFound]
  exact Int.natCast_pos.mpr
    (hSound.admitted id links hFound).heavy

/- A sum of values in a range is in the range of the sum. -/
theorem sum_range
    {amount : Hash256 → Int}
    {most : Int}
    (hRange : ∀ id, 0 ≤ amount id ∧ amount id ≤ most)
    (ids : List Hash256) :
    0 ≤ (ids.map amount).sum ∧
      (ids.map amount).sum ≤ ids.length * most := by
  induction ids with
  | nil => simp
  | cons id ids ih =>
      have hHere := hRange id
      have hLength :
          ((id :: ids).length : Int) * most =
            ids.length * most + most := by
        rw [List.length_cons]
        push_cast
        ring
      rw [List.map_cons, List.sum_cons, hLength]
      omega

/- With few enough entries the machine's sums are exact. -/
theorem Sound.totalsOf_exact
    (hSound : pool.Sound c)
    {ids : List Hash256}
    (hFew : ids.length ≤ 109) :
    (pool.totalsOf ids).1.toInt =
        (ids.map pool.feeAt).sum ∧
      ((pool.totalsOf ids).2 : Int) =
        (ids.map pool.weightAt).sum := by
  induction ids using List.reverseRecOn with
  | nil => exact ⟨rfl, rfl⟩
  | append_singleton ids id ih =>
      rw [List.length_append, List.length_singleton] at hFew
      rcases ih (by omega) with ⟨hFees, hWeights⟩
      have hStep :
          pool.totalsOf (ids ++ [id]) =
            (pool.find id).elim (pool.totalsOf ids)
              fun entry =>
                ((pool.totalsOf ids).1 + entry.fee,
                  (pool.totalsOf ids).2 + entry.weight) := by
        rw [totalsOf, List.foldl_append, List.foldl_cons,
          List.foldl_nil]
        cases pool.find id <;> rfl
      have hRange := sum_range hSound.feeAt_range ids
      have hHere := hSound.feeAt_range id
      rw [hStep, List.map_append, List.map_append,
        List.sum_append, List.sum_append, List.map_singleton,
        List.map_singleton, List.sum_singleton,
        List.sum_singleton, ← hFees, ← hWeights]
      rw [← hFees] at hRange
      unfold feeAt amountAt at hHere
      unfold feeAt weightAt amountAt
      cases hFound : pool.find id with
      | none => simp
      | some entry =>
          rw [hFound] at hHere
          simp only [Option.map_some, Option.getD_some,
            Option.elim_some] at hHere ⊢
          refine ⟨toInt_add_of_fits ?_, by omega⟩
          unfold FitsInt64
          omega

end Bounded

------------------------------------------------------------
-- Packages
------------------------------------------------------------

section Packages

variable {c : Crypto} {pool : Mempool}

/- A package is an entry and at most 25 descendants. -/
theorem Sound.descendantsOf_few
    (hSound : pool.Sound c)
    (id : Hash256) :
    (pool.descendantsOf id).length ≤ 26 := by
  have hNodup : (pool.descendantsOf id).Nodup :=
    nodup_reached _ pool id
  have hCount :
      ((pool.descendantsOf id).length : ENat) ≤ 25 + 1 := by
    calc
      ((pool.descendantsOf id).length : ENat)
          = (pool.descendantsOf id).toFinset.card := by
            rw [List.toFinset_card_of_nodup hNodup]
      _ = ((pool.descendantsOf id).toFinset :
            Set Hash256).encard :=
            (Set.encard_coe_eq_coe_finsetCard _).symm
      _ ≤ (insert id {other |
            pool.Beyond EntryInternal.children id
              other}).encard := by
            apply Set.encard_le_encard
            intro other hOther
            have hReaches :=
              (mem_reached.mp (List.mem_toFinset.mp hOther)).2
            rcases Relation.reflTransGen_iff_eq_or_transGen.mp
              hReaches with hSame | hBeyond
            · exact .inl hSame
            · exact .inr hBeyond
      _ ≤ {other |
            pool.Beyond EntryInternal.children id
              other}.encard + 1 :=
            Set.encard_insert_le _ _
      _ ≤ 25 + 1 := by
            gcongr
            exact hSound.descendants id
  exact_mod_cast hCount

end Packages

------------------------------------------------------------
-- Paying For It
------------------------------------------------------------

/-
  What a replacement does, but for the total of the pool: who
  leaves, what the arrival pays for them, and that nothing
  left behind depends on them.
-/
structure Replaces
    (c : Crypto)
    (pool after : Mempool)
    (tx : Transaction)
    (fee : Int64)
    (displaced : Finset Hash256) : Prop where
  leaving :
    ∀ id, id ∈ displaced ↔
      ∃ conflict, pool.ConflictsWith tx conflict ∧
        pool.Reaches EntryInternal.children conflict id
  remaining :
    ∀ id, after.contains id = true ↔
      id = tx.wtxid c ∨
        (pool.contains id = true ∧ id ∉ displaced)
  fresh : pool.contains (tx.wtxid c) = false
  few : displaced.card ≤ maxReplacementEvictions
  pays :
    displaced.Nonempty →
      ∑ id ∈ displaced, pool.feeAt id < fee.toInt
  outbids :
    ∀ conflict, pool.ConflictsWith tx conflict →
      ∃ package : Finset Hash256,
        (∀ id, id ∈ package ↔
          pool.Reaches EntryInternal.children conflict id) ∧
        (∑ id ∈ package, pool.feeAt id) * tx.weight <
          fee.toInt * ∑ id ∈ package, pool.weightAt id
  unlinked :
    ∀ id ∈ displaced, ∀ other,
      after.contains other = true →
        id ∉ pool.linked EntryInternal.parents other ∧
          id ∉ after.linked EntryInternal.parents other ∧
          id ∉ after.linked EntryInternal.children other

section Paying

variable {c : Crypto} {pool : Mempool} {tx : Transaction}
variable {spentCoins : List Coin} {spendHeight : UInt32}
variable {params : ChainParams} {fee : Int64}

theorem nodup_doomedBy
    (pool : Mempool)
    (tx : Transaction) :
    (pool.doomedBy tx).Nodup :=
  List.nodup_dedup _

theorem Admits.outbids
    (hSound : pool.Sound c)
    (hAdmits :
      pool.Admits c tx spentCoins spendHeight params fee)
    {conflict : Hash256}
    (hConflict : pool.ConflictsWith tx conflict) :
    ((pool.descendantsOf conflict).map pool.feeAt).sum *
        tx.weight <
      fee.toInt *
        ((pool.descendantsOf conflict).map
          pool.weightAt).sum := by
  have hMember := (@Sound.mem_directConflicts_iff _ _ tx
    hSound conflict).mpr hConflict
  have hContains : pool.contains conflict = true := by
    rcases hConflict with ⟨links, hFound, -⟩
    exact contains_iff.mpr ⟨links, hFound⟩
  have hSelf : conflict ∈ pool.descendantsOf conflict :=
    mem_reached.mpr ⟨hContains, .refl⟩
  have hDoomed : pool.doomedBy tx ≠ [] := by
    apply List.ne_nil_of_mem
    exact mem_doomedBy.mpr ⟨conflict, hMember, hSelf⟩
  have hPays := hAdmits.pays hDoomed
  unfold checkReplacement at hPays
  rw [except_check_eq_ok, refuseIf_eq_ok,
    List.any_eq_false] at hPays
  have hRate :
      compareFeerate fee tx.weight
          (pool.descendantTotals conflict).1
          (pool.descendantTotals conflict).2 = .gt := by
    simpa using hPays.1 conflict hMember
  have hFew := hSound.descendantsOf_few conflict
  rcases hSound.totalsOf_exact
    (Nat.le_trans hFew (by decide)) with ⟨hFees, hWeights⟩
  have hFeeRange :=
    sum_range hSound.feeAt_range (pool.descendantsOf conflict)
  have hWeightRange :=
    sum_range hSound.weightAt_range
      (pool.descendantsOf conflict)
  have hHeavy :
      0 < ((pool.descendantsOf conflict).map
        pool.weightAt).sum := by
    apply Int.lt_of_lt_of_le (hSound.weightAt_pos hContains)
    apply List.single_le_sum
    · intro weight hWeight
      rcases List.mem_map.mp hWeight with ⟨id, -, rfl⟩
      exact (hSound.weightAt_range id).1
    · exact List.mem_map_of_mem hSelf
  have hFee := hAdmits.fee_pos
  have hSome := hAdmits.heavy
  have hLight := hAdmits.light
  unfold maxMempoolWeight at hLight
  rw [← hFees] at hFeeRange
  rw [← hWeights] at hWeightRange hHeavy
  rw [descendantTotals, compareFeerate_eq (by omega)
    hFeeRange.1 (by omega) (by omega), compare_gt_iff_gt,
    hFees, hWeights] at hRate
  exact hRate

theorem Admits.pays_exactly
    (hSound : pool.Sound c)
    (hAdmits :
      pool.Admits c tx spentCoins spendHeight params fee)
    (hDoomed : pool.doomedBy tx ≠ []) :
    ((pool.doomedBy tx).map pool.feeAt).sum < fee.toInt := by
  have hPays := hAdmits.pays hDoomed
  unfold checkReplacement at hPays
  rw [except_check_eq_ok] at hPays
  have hTotal := hPays.2
  rw [refuseIf_eq_ok, decide_eq_false_iff_not,
    Int64.le_iff_toInt_le] at hTotal
  have hFew := hAdmits.few
  rw [← (hSound.totalsOf_exact
    (Nat.le_trans hFew (by decide))).1]
  exact Int.not_le.mp hTotal

theorem contains_unlinkAll
    (hLinked : pool.Linked)
    (ids : List Hash256)
    (id : Hash256) :
    (pool.unlinkAll ids).contains id = true ↔
      pool.contains id = true ∧ id ∉ ids := by
  unfold contains
  rw [hLinked.lookup_unlinkAll]
  split
  · rename_i hGone
    simp [hGone]
  · rename_i hLeft
    simp [hLeft]

theorem Fits.contains_insertEntry
    {entry : Entry}
    {parents : List Hash256}
    (hSound : pool.Sound c)
    (hFits : pool.Fits c entry parents)
    (id : Hash256) :
    (pool.insertEntry entry parents).contains id = true ↔
      id = entry.wtxid ∨ pool.contains id = true := by
  by_cases hNew : id = entry.wtxid
  · rw [contains_iff, hNew, hFits.found_new hSound]
    simp
  · rw [contains_iff, contains_iff]
    constructor
    · rintro ⟨links, hFound⟩
      rcases hFits.found_before hSound hFound hNew with
        ⟨old, hOld, -⟩
      exact .inr ⟨old, hOld⟩
    · rintro (hHere | ⟨old, hOld⟩)
      · exact absurd hHere hNew
      · rcases hFits.found_after hSound hOld with
          ⟨-, links, hFound, -⟩
        exact ⟨links, hFound⟩

theorem Admits.contains_takeIn
    (hSound : pool.Sound c)
    (hAdmits :
      pool.Admits c tx spentCoins spendHeight params fee)
    (now : Int64)
    (id : Hash256) :
    (pool.takeIn c tx fee now).contains id = true ↔
      id = tx.wtxid c ∨
        (pool.contains id = true ∧ id ∉ pool.doomedBy tx) := by
  have hFits := hAdmits.fits hSound now
  rw [takeIn, hFits.contains_insertEntry
    (hSound.unlinkAll (pool.doomedBy tx)),
    contains_unlinkAll hSound.linked]
  rfl

theorem Admits.replaces
    (hSound : pool.Sound c)
    (hAdmits :
      pool.Admits c tx spentCoins spendHeight params fee)
    (now : Int64) :
    pool.Replaces c (pool.takeIn c tx fee now) tx fee
      (pool.doomedBy tx).toFinset := by
  have hContains := hAdmits.contains_takeIn hSound now
  have hLinked := (hAdmits.sound_takeIn hSound now).linked
  have hFresh := hAdmits.fresh
  have hInside :
      ∀ id ∈ pool.doomedBy tx, pool.contains id = true := by
    intro id hId
    rcases mem_doomedBy.mp hId with ⟨conflict, -, hMember⟩
    exact hSound.linked.contains_descendant hMember
  have hGone :
      ∀ id ∈ pool.doomedBy tx,
        (pool.takeIn c tx fee now).contains id ≠ true := by
    intro id hId hAfter
    rcases (hContains id).mp hAfter with rfl | ⟨-, hLeft⟩
    · rw [hInside _ hId] at hFresh
      cases hFresh
    · exact hLeft hId
  constructor
  · intro id
    rw [List.mem_toFinset]
    exact hSound.mem_doomedBy_iff id
  · intro id
    rw [hContains, List.mem_toFinset]
  · exact hFresh
  · exact Nat.le_trans (List.toFinset_card_le _) hAdmits.few
  · intro hNonempty
    rw [List.sum_toFinset _ (nodup_doomedBy pool tx)]
    apply hAdmits.pays_exactly hSound
    rintro hEmpty
    rw [hEmpty] at hNonempty
    exact Finset.not_nonempty_empty hNonempty
  · intro conflict hConflict
    have hThere : pool.contains conflict = true := by
      rcases hConflict with ⟨links, hFound, -⟩
      exact contains_iff.mpr ⟨links, hFound⟩
    have hNodup : (pool.descendantsOf conflict).Nodup :=
      nodup_reached _ pool conflict
    refine ⟨(pool.descendantsOf conflict).toFinset, ?_, ?_⟩
    · intro id
      rw [List.mem_toFinset]
      exact mem_reached.trans (and_iff_right hThere)
    · rw [List.sum_toFinset _ hNodup,
        List.sum_toFinset _ hNodup]
      exact hAdmits.outbids hSound hConflict
  · intro id hId other hOther
    rw [List.mem_toFinset] at hId
    refine ⟨?_, ?_, ?_⟩
    · intro hParent
      rw [← hSound.linked.mem_linked_comm] at hParent
      exact hGone other (hSound.doomedBy_closed hId hParent)
        hOther
    · intro hParent
      exact hGone id hId
        (hLinked.contains_linked (.inr hParent))
    · intro hChild
      exact hGone id hId
        (hLinked.contains_linked (.inl hChild))

end Paying

------------------------------------------------------------
-- The Total Of The Pool
------------------------------------------------------------

/- Adding to a machine integer raises it unless it wraps. -/
theorem int64_lt_add_iff
    (total : Int64)
    {gain : Int}
    (hGain : 0 < gain ∧ gain < 2 ^ 63) :
    total < total + Int64.ofInt gain ↔
      total.toInt + gain < 2 ^ 63 := by
  have hLow := total.le_toInt
  have hHigh := total.toInt_lt
  have hExact : (Int64.ofInt gain).toInt = gain :=
    Int64.toInt_ofInt_of_le (by omega) hGain.2
  rw [Int64.lt_iff_toInt_lt, Int64.toInt_add, hExact]
  constructor
  · intro hLess
    by_contra hWraps
    have hSplit :
        total.toInt + gain =
          total.toInt + gain - 2 ^ 64 + (2 ^ 64 : Nat) := by
      omega
    rw [hSplit, Int.add_bmod_right,
      Int.bmod_eq_of_le (by omega) (by omega)] at hLess
    omega
  · intro hFits
    rw [Int.bmod_eq_of_le (by omega) (by omega)]
    omega

/- Everything that a replacement promises. -/
def PaysFor
    (c : Crypto)
    (pool after : Mempool)
    (tx : Transaction)
    (fee : Int64) : Prop :=
  ∃ displaced : Finset Hash256,
    pool.Replaces c after tx fee displaced ∧
      (displaced.Nonempty → pool.totalFees < after.totalFees)

section Total

variable {c : Crypto} {pool : Mempool} {tx : Transaction}
variable {spentCoins : List Coin} {spendHeight : UInt32}
variable {params : ChainParams} {fee : Int64}

theorem Admits.totalFees_takeIn
    (hSound : pool.Sound c)
    (hAdmits :
      pool.Admits c tx spentCoins spendHeight params fee)
    (now : Int64) :
    (pool.takeIn c tx fee now).totalFees =
      pool.totalFees +
        Int64.ofInt
          (fee.toInt -
            ((pool.doomedBy tx).map pool.feeAt).sum) := by
  have hAfter := (hAdmits.sound_takeIn hSound now).fees
  have hArrival :=
    (hAdmits.fits hSound now).totals_insertEntry
      fun entry => entry.fee.toInt
  have hLeaving :=
    total_unlinkAll (fun entry => entry.fee.toInt)
      hSound.linked (nodup_doomedBy pool tx)
  have hExact :
      (pool.takeIn c tx fee now).exactFees =
        pool.exactFees +
          (fee.toInt -
            ((pool.doomedBy tx).map pool.feeAt).sum) := by
    change (pool.takeIn c tx fee now).exactFees =
      fee.toInt + _ at hArrival
    change pool.exactFees =
      ((pool.doomedBy tx).map pool.feeAt).sum + _ at hLeaving
    omega
  rw [hAfter, hExact, Int64.ofInt_add, ← hSound.fees]

/- With room for the arrival nothing else leaves. -/
theorem Admits.accepted
    (hSound : pool.Sound c)
    {now : Int64}
    {entry : Entry}
    {after : Mempool}
    (hCap :
      (pool.unlinkAll (pool.doomedBy tx)).totalWeight +
        tx.weight ≤ maxMempoolWeight)
    (hFee :
      checkTransactionInputs c tx spentCoins spendHeight
        params = .ok fee)
    (hAccept :
      pool.acceptSpending c tx spentCoins spendHeight now
        params = (.ok entry, after)) :
    pool.Admits c tx spentCoins spendHeight params fee ∧
      after = pool.takeIn c tx fee now := by
  rcases acceptSpending_cases c pool tx spendHeight now params
    spentCoins with ⟨rejection, hRefused⟩ | ⟨other, hAdmits,
      hSettled⟩
  · rw [hRefused] at hAccept
    cases hAccept
  · have hSame : other = fee :=
      Except.ok.inj (hAdmits.inputs.symm.trans hFee)
    subst hSame
    rw [hSettled, hAdmits.settle_takeIn hSound hCap,
      Prod.mk.injEq] at hAccept
    exact ⟨hAdmits, hAccept.2.symm⟩

end Total

/-
  With room under the cap a replacement keeps its promises
  exactly when the total of the fees does not wrap.
-/
theorem replacement_pays_iff
    (c : Crypto)
    (params : ChainParams)
    (pool : Mempool)
    (hReachable : Reachable c params pool)
    (tx : Transaction)
    (spentCoins : List Coin)
    (spendHeight : UInt32)
    (now fee : Int64)
    (hFee :
      checkTransactionInputs c tx spentCoins spendHeight
        params = .ok fee)
    (entry : Entry)
    (after : Mempool)
    (hAccept :
      pool.acceptSpending c tx spentCoins spendHeight now
          params = (.ok entry, after) ∨
        ∃ base,
          pool.resolveInputs tx base spendHeight =
              some spentCoins ∧
            pool.accept c tx base spendHeight now params =
              (.ok entry, after))
    (hCap :
      (pool.unlinkAll (pool.doomedBy tx)).totalWeight +
        tx.weight ≤ maxMempoolWeight) :
    pool.PaysFor c after tx fee ↔
      pool.doomedBy tx = [] ∨
        pool.totalFees.toInt +
          (fee.toInt -
            ((pool.doomedBy tx).map pool.feeAt).sum) <
          2 ^ 63 := by
  have hSound := hReachable.sound.1
  have hSpending :
      pool.acceptSpending c tx spentCoins spendHeight now
        params = (.ok entry, after) := by
    rcases hAccept with hDirect | ⟨base, hResolved, hCall⟩
    · exact hDirect
    · rcases accept_cases c pool tx spendHeight now params
        base with
        ⟨rejection, hRefused⟩ | ⟨spent, hSpent, hSame⟩
      · rw [hRefused] at hCall
        cases hCall
      · rw [hResolved, Option.some_inj] at hSpent
        rw [hSpent, ← hSame]
        exact hCall
  rcases Admits.accepted hSound hCap hFee hSpending with
    ⟨hAdmits, rfl⟩
  have hReplaces := hAdmits.replaces hSound now
  have hNonempty :
      (pool.doomedBy tx).toFinset.Nonempty ↔
        pool.doomedBy tx ≠ [] := by
    rw [List.toFinset_nonempty_iff]
  have hTotal :
      pool.doomedBy tx ≠ [] →
        (pool.totalFees <
            (pool.takeIn c tx fee now).totalFees ↔
          pool.totalFees.toInt +
            (fee.toInt -
              ((pool.doomedBy tx).map pool.feeAt).sum) <
            2 ^ 63) := by
    intro hDoomed
    rw [hAdmits.totalFees_takeIn hSound now]
    apply int64_lt_add_iff
    have hPays := hAdmits.pays_exactly hSound hDoomed
    have hRange :=
      sum_range hSound.feeAt_range (pool.doomedBy tx)
    have hMost := fee.toInt_lt
    omega
  constructor
  · rintro ⟨displaced, hOther, hMore⟩
    by_cases hDoomed : pool.doomedBy tx = []
    · exact .inl hDoomed
    · refine .inr ((hTotal hDoomed).mp (hMore ?_))
      have hSame :
          displaced = (pool.doomedBy tx).toFinset := by
        ext id
        rw [hOther.leaving, hReplaces.leaving]
      rw [hSame]
      exact hNonempty.mpr hDoomed
  · intro hBound
    refine ⟨_, hReplaces, ?_⟩
    intro hSome
    have hDoomed := hNonempty.mp hSome
    exact (hTotal hDoomed).mpr
      (hBound.resolve_left hDoomed)

end Mempool

------------------------------------------------------------
-- A Total That Wraps
------------------------------------------------------------

namespace Sample

/- Every outpoint holds all the money there is. -/
def richCoins : Utxo :=
  fun _ => some (coinOf maxMoney)

/- Pays little of a great coin. -/
def outbid : Transaction × Int64 :=
  (spread 200 0 (maxMoney - 1000) 0, 1000)

/- Pays all of it. -/
def outbidding : Transaction :=
  spread 201 0 0 0

/- A hundred and nine great fees, and a small one. -/
def richArrivals : List (Transaction × Int64) :=
  fillers 109 0 maxMoney ++ [outbid]

/- The pool that holds all but the last. -/
def richPool
    (c : Crypto) : Mempool :=
  Mempool.run c regtestParams
    (Mempool.entering richCoins 1 0 richArrivals)

/- The replacement is made, and the total of the fees falls. -/
def TotalWraps
    (c : Crypto) : Prop :=
  ∃ entry after,
    (richPool c).accept c outbidding richCoins 1 0
        regtestParams = (.ok entry, after) ∧
      ((richPool c).unlinkAll
          ((richPool c).doomedBy outbidding)).totalWeight +
        outbidding.weight ≤ maxMempoolWeight ∧
      (richPool c).totalFees = 9155999992606531000 ∧
      after.totalFees = -9206744081170851616 ∧
      ¬(richPool c).PaysFor c after outbidding maxMoney

theorem outbidding_standing
    (c : Crypto) :
    Mempool.Standing c regtestParams outbidding
      [coinOf maxMoney] 1 maxMoney :=
  spread_standing c (by decide) (by decide) (by decide)
    rfl rfl rfl (by decide) (by decide)

theorem richPool_holds
    {c : Crypto}
    (hTelling : Telling c richArrivals) :
    Mempool.Holds c 0 richArrivals (richPool c) := by
  unfold richPool richArrivals
  refine fillers_run (by decide) hTelling rfl
    (fun _ _ => rfl) rfl ?_ ?_ ?_
  · intro k hK
    have hIndex := filler_index (k := k) (by omega)
    exact spread_standing c hIndex (by decide) (by decide)
      rfl rfl rfl (by decide) (by decide)
  · exact spread_standing c (by decide) (by decide)
      (by decide) rfl rfl rfl (by decide) (by decide)
  · rw [List.map_append, List.sum_append,
      fillers_weight (by decide)]
    decide

theorem totalWraps
    {c : Crypto}
    (hTelling :
      Telling c
        (fillers 109 0 maxMoney ++
          [outbid, (outbidding, maxMoney)])) :
    TotalWraps c := by
  have hBefore : Telling c richArrivals :=
    hTelling.sublist
      (List.Sublist.append_left
        ((List.nil_sublist _).cons_cons outbid) _)
  have hHolds := richPool_holds hBefore
  rcases fillers_outbid (by decide) hTelling hHolds rfl rfl
    (outbidding_standing c) (by decide) (by decide) with
    ⟨hAdmits, hDoomed, hAfter⟩
  have hRoom :
      ((richPool c).unlinkAll
          ((richPool c).doomedBy outbidding)).totalWeight +
        outbidding.weight ≤ maxMempoolWeight := by
    have hWeight := hAfter.weight
    rw [List.map_append, List.sum_append,
      fillers_weight (by decide)] at hWeight
    change (Mempool.takeIn c (richPool c) outbidding maxMoney
      0).totalWeight ≤ maxMempoolWeight
    rw [hWeight]
    decide
  have hTotal : (richPool c).totalFees =
      9155999992606531000 := by
    rw [hHolds.fees, richArrivals, List.map_append,
      List.sum_append, fillers_fees]
    decide
  have hTotalAfter :
      ((richPool c).takeIn c outbidding maxMoney
        0).totalFees = -9206744081170851616 := by
    have hFees := hAfter.fees
    rw [List.map_append, List.sum_append,
      fillers_fees] at hFees
    rw [hFees]
    decide
  refine ⟨Mempool.entryFor c outbidding maxMoney 0, _, ?_, hRoom,
    hTotal, hTotalAfter, ?_⟩
  · rw [hAdmits.accept (spread_resolved rfl _ _ _ _),
      hAdmits.settle_takeIn hHolds.sound hRoom]
  · rintro ⟨displaced, hReplaces, hMore⟩
    have hRises := hMore ⟨outbid.1.wtxid c, by
      rw [hReplaces.leaving,
        ← hHolds.sound.mem_doomedBy_iff, hDoomed]
      exact List.mem_singleton_self _⟩
    rw [hTotal, hTotalAfter] at hRises
    exact absurd hRises (by decide)

theorem firstByte_telling :
    Telling firstByte
      (fillers 109 0 maxMoney ++
        [outbid, (outbidding, maxMoney)]) where
  wtxids := by decide +kernel
  txids := by decide +kernel

/- It takes no more than ids that differ. -/
theorem richPool_totalWraps :
    TotalWraps firstByte ∧
      ∀ c,
        Telling c
            (fillers 109 0 maxMoney ++
              [outbid, (outbidding, maxMoney)]) →
          TotalWraps c :=
  ⟨totalWraps firstByte_telling, fun _ => totalWraps⟩

/- The parent again, with less change and a higher fee. -/
def dearerPayment : Transaction :=
  spread 1 0 10000 0

theorem dearerPayment_standing :
    Mempool.Standing Crypto.reference regtestParams
      dearerPayment [coinOf 30000] 1 20000 :=
  spread_standing Crypto.reference (by decide) (by decide)
    (by decide) rfl rfl rfl (by decide) (by decide)

theorem parentIn_outbid :
    parentIn.PaysFor Crypto.reference
      (parentIn.accept Crypto.reference dearerPayment oneCoin
        1 0 regtestParams).2 dearerPayment 20000 := by
  have hOk :
      (parentIn.accept Crypto.reference dearerPayment oneCoin
        1 0 regtestParams).1.isOk = true := by
    decide +kernel
  rcases except_isOk hOk with ⟨entry, hEntry⟩
  have hResolved :
      parentIn.resolveInputs dearerPayment oneCoin 1 =
        some [coinOf 30000] :=
    spread_resolved (if_pos rfl) _ _ _ _
  have hAccept :
      parentIn.accept Crypto.reference dearerPayment oneCoin 1
          0 regtestParams =
        (.ok entry,
          (parentIn.accept Crypto.reference dearerPayment
            oneCoin 1 0 regtestParams).2) := by
    rw [← hEntry]
  apply (Mempool.replacement_pays_iff Crypto.reference
    regtestParams parentIn ⟨_, rfl⟩ dearerPayment
    [coinOf 30000] 1 0 20000 dearerPayment_standing.inputs
    entry _ (.inr ⟨oneCoin, hResolved, hAccept⟩)
    (by decide +kernel)).mpr
  refine .inr ?_
  decide +kernel

end Sample

end Amarian
