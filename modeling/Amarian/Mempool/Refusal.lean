import Amarian.Mempool.Replacement

/-
  What a refusal leaves behind.

  Every refusal but the last comes before anything changes.
  The last one comes after a trim that took the arrival out:
  the pool is then as it was only if the arrival displaced
  nothing and was the first package to go.

  Key definitions include:
    * `Mempool.Same`
    * `Mempool.Spared`

  Key theorems include:
    * `Mempool.refusal_same_iff`
-/

------------------------------------------------------------
-- Pools That Are The Same
------------------------------------------------------------

namespace Amarian

namespace Mempool

/- The same entries and links, indices and totals. -/
structure Same
    (pool after : Mempool) : Prop where
  entries :
    ∀ id, after.entries.lookup id = pool.entries.lookup id
  spentBy : after.spentBy = pool.spentBy
  byTxid : after.byTxid = pool.byTxid
  weight : after.totalWeight = pool.totalWeight
  fees : after.totalFees = pool.totalFees

theorem Same.refl
    (pool : Mempool) :
    pool.Same pool :=
  ⟨fun _ => rfl, rfl, rfl, rfl, rfl⟩

theorem Same.contains
    {pool after : Mempool}
    (hSame : pool.Same after)
    (id : Hash256) :
    after.contains id = pool.contains id := by
  rw [Mempool.contains, Mempool.contains, hSame.entries]

/-
  The arrival fits, or survives the trim, or it displaced
  nothing and is itself the cheapest package.
-/
def Spared
    (c : Crypto)
    (pool : Mempool)
    (tx : Transaction)
    (fee now : Int64) : Prop :=
  (pool.takeIn c tx fee now).totalWeight ≤
      maxMempoolWeight ∨
    ((pool.takeIn c tx fee now).trim
      maxMempoolWeight).2.contains (tx.wtxid c) = true ∨
    (pool.doomedBy tx = [] ∧
      (pool.takeIn c tx fee now).worst.map Candidate.id =
        some (tx.wtxid c) ∧
      pool.byTxid (tx.txid c) = none)

------------------------------------------------------------
-- The First Round Of A Trim
------------------------------------------------------------

theorem trimRounds_done
    {target : Nat}
    {state : Nat × Mempool}
    (hLight : state.2.totalWeight ≤ target)
    (rounds : Nat) :
    trimRounds target rounds state = state := by
  cases rounds with
  | zero => rfl
  | succ rounds =>
      unfold trimRounds
      exact if_neg (Nat.not_lt.mpr hLight)

/- A heavy pool loses its cheapest package first. -/
theorem trim_first
    {c : Crypto}
    {pool : Mempool}
    (hSound : pool.Sound c)
    {target : Nat}
    (hHeavy : target < pool.totalWeight) :
    ∃ id rounds evicted,
      pool.worst.map Candidate.id = some id ∧
        pool.contains id = true ∧
        (pool.trim target).2 =
          (trimRounds target rounds
            (evicted, (pool.removeRecursive id).2)).2 := by
  rcases pool.worst_spec with
    ⟨-, hEmpty⟩ | ⟨id, hId, hWorst⟩
  · rw [hSound.weight_of_empty hEmpty] at hHeavy
    exact absurd hHeavy (Nat.not_lt_zero _)
  · refine ⟨id, pool.wtxids.length - 1,
      0 + (pool.removeRecursive id).1, ?_, mem_wtxids.mp hId,
      ?_⟩
    · rw [hWorst]
      rfl
    · have hSome : 0 < pool.wtxids.length :=
        List.length_pos_of_mem hId
      have hLength :
          pool.wtxids.length =
            (pool.wtxids.length - 1) + 1 := by
        omega
      have hRound :
          trimRounds target ((pool.wtxids.length - 1) + 1)
              (0, pool) =
            trimRounds target (pool.wtxids.length - 1)
              (0 + (pool.removeRecursive id).1,
                (pool.removeRecursive id).2) := by
        rw [trimRounds, if_pos hHeavy]
        simp only [hWorst]
        rfl
      rw [trim, hLength, hRound]
      rfl

/- What goes first does not come back. -/
theorem trim_worst
    {c : Crypto}
    {pool : Mempool}
    (hSound : pool.Sound c)
    {target : Nat}
    (hHeavy : target < pool.totalWeight) :
    ∃ id,
      pool.worst.map Candidate.id = some id ∧
        pool.contains id = true ∧
        (pool.trim target).2.contains id = false := by
  rcases trim_first hSound hHeavy with
    ⟨id, rounds, evicted, hWorst, hThere, hTrim⟩
  refine ⟨id, hWorst, hThere, ?_⟩
  have hSelf : id ∈ pool.descendantsOf id :=
    mem_reached.mpr ⟨hThere, .refl⟩
  have hRemoved :=
    (removeRecursive_sheds pool id).sound hSound
  rcases trimRounds_sheds target rounds
    (evicted, (pool.removeRecursive id).2) with
    ⟨more, hMore⟩
  rw [hTrim, hMore, ← Bool.not_eq_true]
  intro hAfter
  have hLeft :=
    (contains_unlinkAll hRemoved.linked more id).mp hAfter
  exact ((contains_unlinkAll hSound.linked _ id).mp
    hLeft.1).2 hSelf

------------------------------------------------------------
-- An Arrival That Leaves At Once
------------------------------------------------------------

section Leaving

variable {c : Crypto} {pool : Mempool}
variable {entry : Entry} {parents : List Hash256}

/- An arrival has no descendants yet. -/
theorem Fits.descendantsOf_new
    (hSound : pool.Sound c)
    (hFits : pool.Fits c entry parents) :
    (pool.insertEntry entry parents).descendantsOf
      entry.wtxid = [entry.wtxid] :=
  reached_eq_singleton (hFits.found_new hSound) rfl

theorem Fits.lookup_unlink_new
    (hSound : pool.Sound c)
    (hFits : pool.Fits c entry parents)
    (id : Hash256) :
    ((pool.insertEntry entry parents).unlink
        entry.wtxid).entries.lookup id =
      pool.entries.lookup id := by
  have hLinked := hFits.linked_insertEntry hSound
  have hDrop :
      ∀ links, pool.entries.lookup id = some links →
        dropAll [entry.wtxid] links = links ∧
          dropAll [entry.wtxid]
            (addChild entry.wtxid links) = links := by
    intro links hFound
    rcases hSound.linked.not_linked hFits.fresh hFound with
      ⟨hChild, hParent⟩
    have hSelf :
        dropAll [entry.wtxid] links = links := by
      rw [dropAll_singleton, dropChild_of_notMem hChild,
        dropParent_of_notMem hParent]
    refine ⟨hSelf, ?_⟩
    have hAdded :
        dropAll [entry.wtxid] (addChild entry.wtxid links) =
          dropAll [entry.wtxid] links := by
      simp [dropAll, addChild, hChild]
    rw [hAdded, hSelf]
  rw [hLinked.lookup_unlink]
  by_cases hHere : id = entry.wtxid
  · rw [if_pos hHere, hHere, hFits.fresh]
  · rw [if_neg hHere, hFits.lookup_insertEntry hSound,
      if_neg hHere]
    cases hFound : pool.entries.lookup id with
    | none => simp
    | some links =>
        rcases hDrop links hFound with ⟨hSelf, hAdded⟩
        split
        · rw [Option.map_some, Option.map_some, hAdded]
        · rw [Option.map_some, hSelf]

/- Taking an arrival out again undoes letting it in. -/
theorem Fits.same_unlink_new
    (hSound : pool.Sound c)
    (hFits : pool.Fits c entry parents)
    (hUnindexed : pool.byTxid entry.txid = none) :
    pool.Same
      ((pool.insertEntry entry parents).unlink
        entry.wtxid) := by
  have hAfter := hSound.insertEntry hFits
  have hNew := hFits.found_new hSound
  constructor
  · exact hFits.lookup_unlink_new hSound
  · funext outpoint
    apply Option.ext
    intro id
    rw [hAfter.spentBy_unlink, spentBy_insertEntry]
    constructor
    · rintro ⟨hNe, hSpent⟩
      split at hSpent
      · exact absurd (Option.some_inj.mp hSpent).symm hNe
      · exact hSpent
    · intro hSpent
      rcases (hSound.spends outpoint id).mp hSpent with
        ⟨links, hFound, hSpends⟩
      have hNe : id ≠ entry.wtxid := by
        rintro rfl
        rw [hFits.fresh] at hFound
        cases hFound
      refine ⟨hNe, ?_⟩
      rw [if_neg, hSpent]
      intro hOwn
      rw [hFits.unspent outpoint hOwn] at hSpent
      cases hSpent
  · funext txid
    apply Option.ext
    intro id
    rw [hAfter.byTxid_unlink]
    change id ≠ entry.wtxid ∧
      Function.update pool.byTxid entry.txid
        (some entry.wtxid) txid = some id ↔ _
    by_cases hHere : txid = entry.txid
    · rw [hHere, Function.update_self, hUnindexed,
        Option.some_inj]
      constructor
      · rintro ⟨hNe, hSame⟩
        exact absurd hSame.symm hNe
      · exact nofun
    · rw [Function.update_of_ne hHere]
      refine ⟨And.right, fun hIndexed => ⟨?_, hIndexed⟩⟩
      rintro rfl
      rcases hSound.indexed _ _ hIndexed with
        ⟨links, hFound, -⟩
      rw [hFits.fresh] at hFound
      cases hFound
  · have hLeft :
        ((pool.insertEntry entry parents).unlink
            entry.wtxid).totalWeight =
          pool.totalWeight + entry.weight - entry.weight := by
      unfold unlink
      rw [hNew]
      rfl
    rw [hLeft, Nat.add_sub_cancel]
  · have hLeft :
        ((pool.insertEntry entry parents).unlink
            entry.wtxid).totalFees =
          pool.totalFees + entry.fee - entry.fee := by
      unfold unlink
      rw [hNew]
      rfl
    rw [hLeft, Int64.add_sub_cancel]

end Leaving

------------------------------------------------------------
-- The Last Refusal
------------------------------------------------------------

section Refused

variable {c : Crypto} {pool : Mempool} {tx : Transaction}
variable {spentCoins : List Coin} {spendHeight : UInt32}
variable {params : ChainParams} {fee now : Int64}

/- An arrival that displaced nothing goes first and alone. -/
theorem Admits.same_trim
    (hSound : pool.Sound c)
    (hLight : pool.totalWeight ≤ maxMempoolWeight)
    (hAdmits :
      pool.Admits c tx spentCoins spendHeight params fee)
    (hHeavy :
      maxMempoolWeight <
        (pool.takeIn c tx fee now).totalWeight)
    (hDoomed : pool.doomedBy tx = [])
    (hWorst :
      (pool.takeIn c tx fee now).worst.map Candidate.id =
        some (tx.wtxid c))
    (hUnindexed : pool.byTxid (tx.txid c) = none) :
    pool.Same
      ((pool.takeIn c tx fee now).trim
        maxMempoolWeight).2 := by
  have hFits := hAdmits.fits hSound now
  have hAdmit :
      pool.takeIn c tx fee now =
        pool.insertEntry (entryFor c tx fee now)
          (pool.parentsFor tx) := by
    rw [takeIn, hDoomed]
    rfl
  rw [hDoomed] at hFits
  change pool.Fits c _ _ at hFits
  rcases trim_first (hAdmits.sound_takeIn hSound now) hHeavy
    with ⟨id, rounds, evicted, hFirst, -, hTrim⟩
  rw [hWorst, Option.some_inj] at hFirst
  have hSame := hFits.same_unlink_new hSound hUnindexed
  have hAlone :
      ((pool.takeIn c tx fee now).removeRecursive id).2 =
        (pool.insertEntry (entryFor c tx fee now)
          (pool.parentsFor tx)).unlink (tx.wtxid c) := by
    rw [← hFirst, hAdmit, removeRecursive]
    change (List.foldl Mempool.unlink _ (descendantsOf _
      (entryFor c tx fee now).wtxid)) = _
    rw [hFits.descendantsOf_new hSound]
    rfl
  rw [hTrim, hAlone, trimRounds_done]
  · exact hSame
  · exact Nat.le_trans (Nat.le_of_eq hSame.weight) hLight

/- If nothing is lost, only the arrival left. -/
theorem Admits.spared_of_same
    (hSound : pool.Sound c)
    (hAdmits :
      pool.Admits c tx spentCoins spendHeight params fee)
    (hHeavy :
      maxMempoolWeight <
        (pool.takeIn c tx fee now).totalWeight)
    (hSame :
      pool.Same
        ((pool.takeIn c tx fee now).trim
          maxMempoolWeight).2) :
    pool.doomedBy tx = [] ∧
      (pool.takeIn c tx fee now).worst.map Candidate.id =
        some (tx.wtxid c) ∧
      pool.byTxid (tx.txid c) = none := by
  have hAdmitted := hAdmits.sound_takeIn hSound now
  have hContains := hAdmits.contains_takeIn hSound now
  rcases trim_sheds (pool.takeIn c tx fee now)
    maxMempoolWeight with ⟨ids, hIds⟩
  -- what the trim leaves was admitted
  have hLeft :
      ∀ id, pool.contains id = true →
        (pool.takeIn c tx fee now).contains id = true ∧
          id ∉ ids := by
    intro id hId
    rw [← hSame.contains, hIds] at hId
    exact (contains_unlinkAll hAdmitted.linked ids id).mp hId
  have hFresh := hAdmits.fresh
  refine ⟨?_, ?_, ?_⟩
  · rw [List.eq_nil_iff_forall_not_mem]
    intro id hDoomed
    have hInside : pool.contains id = true := by
      rcases mem_doomedBy.mp hDoomed with
        ⟨conflict, -, hMember⟩
      exact hSound.linked.contains_descendant hMember
    rcases (hContains id).mp (hLeft id hInside).1 with
      rfl | ⟨-, hNot⟩
    · rw [hInside] at hFresh
      cases hFresh
    · exact hNot hDoomed
  · rcases trim_worst hAdmitted hHeavy with
      ⟨id, hFirst, hThere, hGone⟩
    rw [hFirst, Option.some_inj]
    rcases (hContains id).mp hThere with hHere | ⟨hOld, -⟩
    · exact hHere
    · rw [hSame.contains, hOld] at hGone
      cases hGone
  · rw [Option.eq_none_iff_forall_ne_some]
    intro other hIndexed
    rw [← hSame.byTxid, hIds,
      hAdmitted.byTxid_unlinkAll] at hIndexed
    have hNewest :
        (pool.takeIn c tx fee now).byTxid (tx.txid c) =
          some (tx.wtxid c) :=
      Function.update_self ..
    rw [hNewest, Option.some_inj] at hIndexed
    have hBefore :
        pool.byTxid (tx.txid c) = some (tx.wtxid c) := by
      rw [← hSame.byTxid, hIds, hAdmitted.byTxid_unlinkAll,
        hNewest]
      exact ⟨hIndexed.2 ▸ hIndexed.1, rfl⟩
    rcases hSound.indexed _ _ hBefore with
      ⟨links, hFound, -⟩
    rw [contains_iff.mpr ⟨links, hFound⟩] at hFresh
    cases hFresh

/- A replacement that ranks last goes, and so did the others. -/
theorem Admits.lost
    (hSound : pool.Sound c)
    (hAdmits :
      pool.Admits c tx spentCoins spendHeight params fee)
    (hHeavy :
      maxMempoolWeight <
        (pool.takeIn c tx fee now).totalWeight)
    (hWorst :
      (pool.takeIn c tx fee now).worst.map Candidate.id =
        some (tx.wtxid c)) :
    ∃ after,
      settle (tx.wtxid c) (pool.takeIn c tx fee now) =
          (refuse .poolFull, after) ∧
        after.contains (tx.wtxid c) = false ∧
        ∀ id ∈ pool.doomedBy tx,
          after.contains id = false := by
  have hAdmitted := hAdmits.sound_takeIn hSound now
  have hCapped :
      (pool.takeIn c tx fee now).capped =
        ((pool.takeIn c tx fee now).trim
          maxMempoolWeight).2 :=
    if_pos hHeavy
  rcases trim_worst hAdmitted hHeavy with
    ⟨id, hFirst, -, hGone⟩
  rw [hWorst, Option.some_inj] at hFirst
  subst hFirst
  refine ⟨_, ?_, hGone, ?_⟩
  · have hNone :
        ((pool.takeIn c tx fee now).trim
          maxMempoolWeight).2.find (tx.wtxid c) = none := by
      rw [contains, Option.isSome_eq_false_iff,
        Option.isNone_iff_eq_none] at hGone
      rw [find, hGone]
      rfl
    rw [settle_eq, hCapped, hNone]
  · intro id hDoomed
    rcases trim_sheds (pool.takeIn c tx fee now)
      maxMempoolWeight with ⟨ids, hIds⟩
    rw [← Bool.not_eq_true, hIds,
      contains_unlinkAll hAdmitted.linked,
      hAdmits.contains_takeIn hSound now]
    rintro ⟨rfl | ⟨-, hNot⟩, -⟩
    · have hFresh := hAdmits.fresh
      rcases mem_doomedBy.mp hDoomed with
        ⟨conflict, -, hMember⟩
      rw [hSound.linked.contains_descendant hMember]
        at hFresh
      cases hFresh
    · exact hNot hDoomed

/- The refusal after the checks, in terms of its cause. -/
theorem Admits.settle_same_iff
    (hSound : pool.Sound c)
    (hLight : pool.totalWeight ≤ maxMempoolWeight)
    (hAdmits :
      pool.Admits c tx spentCoins spendHeight params fee)
    (now : Int64) :
    (∀ rejection after,
      settle (tx.wtxid c) (pool.takeIn c tx fee now) =
          (.error rejection, after) →
        pool.Same after) ↔
      pool.Spared c tx fee now := by
  by_cases hHeavy :
      maxMempoolWeight <
        (pool.takeIn c tx fee now).totalWeight
  · have hCapped :
        (pool.takeIn c tx fee now).capped =
          ((pool.takeIn c tx fee now).trim
            maxMempoolWeight).2 :=
      if_pos hHeavy
    rw [settle_eq, hCapped]
    cases hFound :
        ((pool.takeIn c tx fee now).trim
          maxMempoolWeight).2.find (tx.wtxid c) with
    | some entry =>
        constructor
        · intro _
          rcases Option.map_eq_some_iff.mp hFound with
            ⟨links, hLinks, -⟩
          exact .inr (.inl (contains_iff.mpr ⟨links, hLinks⟩))
        · intro _ rejection after hCall
          cases (Prod.mk.inj hCall).1
    | none =>
        have hGone :
            ((pool.takeIn c tx fee now).trim
              maxMempoolWeight).2.contains (tx.wtxid c) ≠
                true := by
          intro hContains
          rcases contains_iff.mp hContains with
            ⟨links, hLinks⟩
          rw [find, hLinks] at hFound
          cases hFound
        constructor
        · intro hSame
          exact .inr (.inr (hAdmits.spared_of_same hSound
            hHeavy (hSame _ _ rfl)))
        · intro hSpared rejection after hRefused
          rcases hSpared with
            hFits | hKept | ⟨hDoomed, hWorst, hUnindexed⟩
          · exact absurd hHeavy (Nat.not_lt.mpr hFits)
          · exact absurd hKept hGone
          · rw [← (Prod.mk.inj hRefused).2]
            exact hAdmits.same_trim hSound hLight hHeavy
              hDoomed hWorst hUnindexed
  · have hFits := Nat.not_lt.mp hHeavy
    rw [hAdmits.settle_takeIn hSound hFits]
    constructor
    · exact fun _ => .inl hFits
    · intro _ rejection after hCall
      cases (Prod.mk.inj hCall).1

end Refused

/-
  A refused transaction leaves the pool as it was exactly if
  it failed a check, fits, survives the trim, or is alone to
  go.
-/
theorem refusal_same_iff
    (c : Crypto)
    (params : ChainParams)
    (pool : Mempool)
    (hReachable : Reachable c params pool)
    (tx : Transaction)
    (base : Utxo)
    (spendHeight : UInt32)
    (now : Int64) :
    (∀ rejection after,
      pool.accept c tx base spendHeight now params =
          (.error rejection, after) →
        pool.Same after) ↔
      ∀ spentCoins fee,
        pool.resolveInputs tx base spendHeight =
            some spentCoins →
          pool.Admits c tx spentCoins spendHeight params
              fee →
            pool.Spared c tx fee now := by
  rcases hReachable.sound with ⟨hSound, hLight⟩
  constructor
  · intro hSame spentCoins fee hResolved hAdmits
    rw [hAdmits.accept hResolved] at hSame
    exact (hAdmits.settle_same_iff hSound hLight now).mp hSame
  · intro hSpared rejection after hRefused
    rcases accept_cases c pool tx spendHeight now params base
      with ⟨other, hUnchanged⟩ | ⟨spent, hResolved, hCall⟩
    · rw [hUnchanged] at hRefused
      rw [← (Prod.mk.inj hRefused).2]
      exact Same.refl pool
    · rcases acceptSpending_cases c pool tx spendHeight now
        params spent with
        ⟨other, hUnchanged⟩ | ⟨fee, hAdmits, hSettled⟩
      · rw [hCall, hUnchanged] at hRefused
        rw [← (Prod.mk.inj hRefused).2]
        exact Same.refl pool
      · rw [hCall, hSettled] at hRefused
        exact (hAdmits.settle_same_iff hSound hLight now).mpr
          (hSpared spent fee hResolved hAdmits) rejection
          after hRefused

end Mempool

------------------------------------------------------------
-- A Replacement That Is Lost
------------------------------------------------------------

namespace Sample

/- A small coin at the first index, great ones elsewhere. -/
def poorCoin : Utxo :=
  fun outpoint =>
    if outpoint.index = 0 then
      some (coinOf 2000)
    else
      some (coinOf 20000000)

/- Pays least of what is in the pool. -/
def cheapest : Transaction × Int64 :=
  (spread 200 0 1100 10, 900)

/- Spends the same coin for a better rate. -/
def replacing : Transaction :=
  spread 201 0 0 11

/- As much as the pool can hold, but for thirty units. -/
def fullArrivals : List (Transaction × Int64) :=
  fillers 25 49993 20000000 ++ [cheapest]

/- The pool that holds all of these. -/
def fullPool
    (c : Crypto) : Mempool :=
  Mempool.run c regtestParams
    (Mempool.entering poorCoin 1 0 fullArrivals)

/- The replaced entry is gone, and so is its replacement. -/
def ReplacedAndLost
    (c : Crypto) : Prop :=
  ∃ after,
    (fullPool c).accept c replacing poorCoin 1 0
        regtestParams = (Mempool.refuse .poolFull, after) ∧
      (fullPool c).contains (cheapest.1.wtxid c) = true ∧
      after.contains (cheapest.1.wtxid c) = false ∧
      after.contains (replacing.wtxid c) = false ∧
      ¬(fullPool c).Same after

theorem replacing_standing
    (c : Crypto) :
    Mempool.Standing c regtestParams replacing [coinOf 2000] 1
      2000 :=
  spread_standing c (by decide) (by decide) (by decide)
    rfl rfl rfl (by decide) (by decide)

theorem fullPool_holds
    {c : Crypto}
    (hTelling : Telling c fullArrivals) :
    Mempool.Holds c 0 fullArrivals (fullPool c) := by
  unfold fullPool fullArrivals
  refine fillers_run (by decide) hTelling rfl ?_ (if_pos rfl)
    ?_ ?_ ?_
  · intro k hK
    exact if_neg (filler_index_ne_zero (by omega))
  · intro k hK
    have hIndex := filler_index (k := k) (by omega)
    exact spread_standing c hIndex (by decide) (by decide)
      rfl rfl rfl (by decide) (by decide)
  · exact spread_standing c (by decide) (by decide)
      (by decide) rfl rfl rfl (by decide) (by decide)
  · have hLast : cheapest.1.weight = 645 := by
      rw [cheapest, spread_weight (by decide)]
      decide
    rw [List.map_append, List.sum_append,
      fillers_weight (by decide), List.map_singleton,
      List.sum_singleton, hLast]
    decide

theorem cheapest_weight :
    cheapest.1.weight = 645 := by
  rw [cheapest, spread_weight (by decide)]
  decide

theorem replacing_weight :
    replacing.weight = 685 := by
  rw [replacing, spread_weight (by decide)]
  decide

/- Every filler pays more for its weight than a small entry
   with such a fee. -/
theorem fillers_dearer
    {fee : Int64}
    (hLess :
      compareFeerate fee 685 20000000
            (4 * ((writeCompactSize (49993 + 1)).length +
                10 * 49993) + 241) = .lt ∧
        compareFeerate 20000000
            (4 * ((writeCompactSize (49993 + 1)).length +
                10 * 49993) + 241) fee 685 = .gt)
    {arrival : Transaction × Int64}
    (hArrival : arrival ∈ fillers 25 49993 20000000) :
    compareFeerate fee 685 arrival.2 arrival.1.weight =
        .lt ∧
      compareFeerate arrival.2 arrival.1.weight fee 685 =
        .gt := by
  rcases List.mem_map.mp hArrival with ⟨k, hK, rfl⟩
  rw [List.mem_range] at hK
  rw [spread_weight (filler_index (by omega))]
  exact hLess

theorem replacedAndLost
    {c : Crypto}
    (hTelling :
      Telling c
        (fillers 25 49993 20000000 ++
          [cheapest, (replacing, 2000)])) :
    ReplacedAndLost c := by
  have hBefore : Telling c fullArrivals :=
    hTelling.sublist
      (List.Sublist.append_left
        ((List.nil_sublist _).cons_cons cheapest) _)
  have hHolds := fullPool_holds hBefore
  have hRate :
      compareFeerate 2000 replacing.weight cheapest.2
        cheapest.1.weight = .gt := by
    rw [cheapest_weight, replacing_weight]
    decide
  rcases fillers_outbid (by decide) hTelling hHolds rfl rfl
    (replacing_standing c) hRate (by decide) with
    ⟨hAdmits, hDoomed, hAfter⟩
  change (fullPool c).Admits c replacing [coinOf 2000] 1
    regtestParams 2000 at hAdmits
  change Mempool.Holds c 0 _
    ((fullPool c).takeIn c replacing 2000 0) at hAfter
  have hHeavy :
      maxMempoolWeight <
        ((fullPool c).takeIn c replacing 2000
          0).totalWeight := by
    rw [hAfter.weight, List.map_append, List.sum_append,
      fillers_weight (by decide), List.map_singleton,
      List.sum_singleton, replacing_weight]
    decide
  have hWorst :
      ((fullPool c).takeIn c replacing 2000 0).worst.map
        Mempool.Candidate.id = some (replacing.wtxid c) := by
    apply hAfter.worst
    intro arrival hArrival
    rw [replacing_weight]
    exact fillers_dearer (by decide) hArrival
  rcases hAdmits.lost hHolds.sound hHeavy hWorst with
    ⟨after, hCall, hGone, hAlso⟩
  have hThere :
      (fullPool c).contains (cheapest.1.wtxid c) = true :=
    Mempool.contains_iff.mpr ⟨_, hHolds.found
      (List.mem_append_right _ (List.mem_singleton_self _))⟩
  have hLost : after.contains (cheapest.1.wtxid c) = false :=
    hAlso _ (by
      rw [hDoomed]
      exact List.mem_singleton_self _)
  refine ⟨after, ?_, hThere, hLost, hGone, ?_⟩
  · rw [hAdmits.accept
      (spread_resolved (if_pos rfl) _ _ _ _)]
    exact hCall
  · intro hSame
    rw [hSame.contains, hThere] at hLost
    cases hLost

theorem firstByte_telling_full :
    Telling firstByte
      (fillers 25 49993 20000000 ++
        [cheapest, (replacing, 2000)]) where
  wtxids := by decide +kernel
  txids := by decide

/- It takes no more than ids that differ. -/
theorem fullPool_replacedAndLost :
    ReplacedAndLost firstByte ∧
      ∀ c,
        Telling c
            (fillers 25 49993 20000000 ++
              [cheapest, (replacing, 2000)]) →
          ReplacedAndLost c :=
  ⟨replacedAndLost firstByte_telling_full,
    fun _ => replacedAndLost⟩

/- Pays less for its weight than all that is in the pool. -/
def cheaper : Transaction :=
  spread 202 30 19999300 11

theorem cheaper_weight :
    cheaper.weight = 685 := by
  rw [cheaper, spread_weight (by decide)]
  decide

theorem cheaper_standing :
    Mempool.Standing firstByte regtestParams cheaper
      [coinOf 20000000] 1 700 :=
  spread_standing firstByte (by decide) (by decide)
    (by decide) rfl rfl rfl (by decide) (by decide)

theorem cheaper_told :
    ∀ arrival ∈ fullArrivals,
      arrival.1.wtxid firstByte ≠
          cheaper.wtxid firstByte ∧
        arrival.1.txid firstByte ≠ Bytes32.zero ∧
        arrival.1.txid firstByte ≠
          cheaper.txid firstByte := by
  decide +kernel

theorem cheaper_apart :
    Mempool.Apart firstByte fullArrivals cheaper := by
  intro arrival hArrival
  rcases cheaper_told arrival hArrival with
    ⟨hId, hTxid, -⟩
  rcases List.mem_append.mp hArrival with hFiller | hLast
  · rcases List.mem_map.mp hFiller with ⟨k, hK, rfl⟩
    have hIndex :
        ∀ k ∈ List.range 25,
          UInt32.ofNat (k + 1) ≠ 30 := by
      decide
    exact spread_unrelated hId (hIndex k hK) hTxid
  · rw [List.mem_singleton] at hLast
    subst hLast
    exact spread_unrelated hId (by decide) hTxid

theorem fullPool_holds_told :
    Mempool.Holds firstByte 0 fullArrivals
      (fullPool firstByte) :=
  fullPool_holds
    (firstByte_telling_full.sublist
      (List.Sublist.append_left
        ((List.nil_sublist _).cons_cons cheapest) _))

/- It is taken in, and the pool is too heavy then. -/
theorem takeIn_cheaper :
    Mempool.Holds firstByte 0
      (fullArrivals ++ [(cheaper, 700)])
      ((fullPool firstByte).takeIn firstByte cheaper 700
        0) :=
  fullPool_holds_told.takeIn_apart cheaper_apart
    cheaper_standing

theorem takeIn_cheaper_weight :
    maxMempoolWeight <
      ((fullPool firstByte).takeIn firstByte cheaper 700
        0).totalWeight := by
  rw [takeIn_cheaper.weight, fullArrivals, List.map_append,
    List.sum_append, List.map_append, List.sum_append,
    fillers_weight (by decide), List.map_singleton,
    List.sum_singleton, List.map_singleton,
    List.sum_singleton, cheapest_weight, cheaper_weight]
  decide

/- Nothing in the pool is cheaper. -/
theorem takeIn_cheaper_worst :
    ((fullPool firstByte).takeIn firstByte cheaper 700
        0).worst.map Mempool.Candidate.id =
      some (cheaper.wtxid firstByte) := by
  apply takeIn_cheaper.worst
  intro arrival hArrival
  rw [cheaper_weight]
  rcases List.mem_append.mp hArrival with hFiller | hLast
  · exact fillers_dearer (by decide) hFiller
  · rw [List.mem_singleton.mp hLast, cheapest_weight]
    decide

/- The full pool turns away what pays less, as it was. -/
theorem cheaper_refused :
    ∃ after,
      (fullPool firstByte).accept firstByte cheaper poorCoin
          1 0 regtestParams =
        (Mempool.refuse .poolFull, after) ∧
        (fullPool firstByte).Same after := by
  have hHolds := fullPool_holds_told
  have hResolved :
      (fullPool firstByte).resolveInputs cheaper poorCoin
          1 =
        some [coinOf 20000000] :=
    spread_resolved (if_neg (by decide)) _ _ _ _
  have hAdmits := hHolds.admits cheaper_apart cheaper_standing
  have hDoomed := hHolds.doomedBy fun arrival hArrival =>
    (cheaper_apart arrival hArrival).inputs
  rcases hAdmits.lost hHolds.sound takeIn_cheaper_weight
      takeIn_cheaper_worst with
    ⟨after, hSettled, -, -⟩
  have hCall :=
    (hAdmits.accept hResolved 0).trans hSettled
  refine ⟨after, hCall, ?_⟩
  refine (Mempool.refusal_same_iff firstByte regtestParams
    (fullPool firstByte) ⟨_, rfl⟩ cheaper poorCoin 1
    0).mpr ?_ _ after hCall
  intro spentCoins fee hSpent hOther
  rw [hResolved] at hSpent
  cases hSpent
  have hFee := hAdmits.inputs.symm.trans hOther.inputs
  cases hFee
  -- nothing displaced, and the arrival itself is evicted
  refine Or.inr
    (Or.inr ⟨hDoomed, takeIn_cheaper_worst, ?_⟩)
  rw [Option.eq_none_iff_forall_ne_some]
  intro id hIndexed
  rcases hHolds.sound.indexed _ _ hIndexed with
    ⟨links, hFound, hTxid⟩
  rcases (hHolds.entries id links).mp hFound with
    ⟨arrival, hArrival, -, rfl⟩
  exact (cheaper_told arrival hArrival).2.2 hTxid

end Sample

end Amarian
