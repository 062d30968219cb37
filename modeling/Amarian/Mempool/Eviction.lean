import Amarian.Mempool.Turns

/-
  Trimming the pool, whatever order it is walked in.

  The candidates have a least one, which a scan in any order
  finds, and what a round removes does not depend on the order
  of the removals. So all trims of a pool go the same way.

  Key definitions include:
    * `Mempool.trimBy`
    * `Mempool.Cheapest`
    * `Mempool.Evicts`

  Key theorems include:
    * `Mempool.worstBy_least`
    * `Mempool.trimBy_evicts`
    * `Mempool.trim_evicts`
-/

------------------------------------------------------------
-- Trimming In Any Order
------------------------------------------------------------

namespace Amarian

namespace Mempool

/- The first of the worst, in the order of the walk. -/
def worstBy
    {pool : Mempool}
    (orders : pool.Orders) : Option Candidate :=
  orders.keys.foldl
    (fun worst id =>
      let next := candidateBy orders id
      match worst with
      | none => some next
      | some held =>
          if next.isWorse held then some next else some held)
    none

/- Every pool on the way is walked in its own orders. -/
def trimRoundsBy
    (walk : ∀ pool : Mempool, pool.Orders)
    (targetWeight : Nat) :
    Nat → Nat × Mempool → Nat × Mempool
  | 0, state => state
  | rounds + 1, state =>
      if state.2.totalWeight > targetWeight then
        match worstBy (walk state.2) with
        | none => state
        | some worst =>
            let gone :=
              removeRecursiveBy (walk state.2) worst.id
            trimRoundsBy walk targetWeight rounds
              (state.1 + gone.1, gone.2)
      else
        state

/- Evicts until the weight fits, in that order. -/
def trimBy
    (walk : ∀ pool : Mempool, pool.Orders)
    (pool : Mempool)
    (targetWeight : Nat) : Nat × Mempool :=
  trimRoundsBy walk targetWeight pool.wtxids.length (0, pool)

theorem trimBy_listed
    (pool : Mempool)
    (targetWeight : Nat) :
    trimBy Orders.listed pool targetWeight =
      pool.trim targetWeight := by
  have hRounds :
      ∀ (rounds : Nat) (state : Nat × Mempool),
        trimRoundsBy Orders.listed targetWeight rounds state =
          trimRounds targetWeight rounds state := by
    intro rounds
    induction rounds with
    | zero => exact fun _ => rfl
    | succ rounds ih =>
        intro state
        unfold trimRoundsBy trimRounds
        simp only [ih]
        rfl
  exact hRounds pool.wtxids.length (0, pool)

------------------------------------------------------------
-- The Least Candidate
------------------------------------------------------------

section Least

variable {pool : Mempool}

theorem worstBy_eq
    (orders : pool.Orders) :
    worstBy orders = orders.keys.foldl pool.worse none := by
  have hRound :
      (fun (worst : Option Candidate) (id : Hash256) =>
        let next := candidateBy orders id
        match worst with
        | none => some next
        | some held =>
            if next.isWorse held then some next
            else some held) = pool.worse := by
    funext worst id
    rw [candidateBy_eq]
    rfl
  unfold worstBy
  rw [hRound]

/- A scan ends with what costs the least of all it met. -/
theorem foldl_worse_least
    (hLinked : pool.Linked)
    (hWeights : pool.exactWeight < 2 ^ 64)
    (ids : List Hash256)
    (held : Hash256) :
    ∃ id ∈ held :: ids,
      ids.foldl pool.worse (some (pool.candidate held)) =
          some (pool.candidate id) ∧
        ∀ other ∈ held :: ids,
          (pool.candidate id).cost ≤
            (pool.candidate other).cost := by
  induction ids generalizing held with
  | nil =>
      refine ⟨held, List.mem_singleton_self _, rfl, ?_⟩
      intro other hOther
      rw [List.mem_singleton.mp hOther]
  | cons next ids ih =>
      have hWorse := isWorse_iff
        (candidate_weight_lt hLinked hWeights next)
        (candidate_weight_lt hLinked hWeights held)
      rw [List.foldl_cons]
      by_cases hLess :
          (pool.candidate next).isWorse
            (pool.candidate held) = true
      · have hRound :
            pool.worse (some (pool.candidate held)) next =
              some (pool.candidate next) :=
          if_pos hLess
        rcases ih next with ⟨id, hId, hFold, hLeast⟩
        rw [hRound]
        refine ⟨id, List.mem_cons_of_mem _ hId, hFold, ?_⟩
        intro other hOther
        rcases List.mem_cons.mp hOther with rfl | hRest
        · exact (hLeast next List.mem_cons_self).trans
            (hWorse.mp hLess).le
        · exact hLeast other hRest
      · have hRound :
            pool.worse (some (pool.candidate held)) next =
              some (pool.candidate held) :=
          if_neg hLess
        have hLow :=
          not_lt.mp (fun hCost => hLess (hWorse.mpr hCost))
        rcases ih held with ⟨id, hId, hFold, hLeast⟩
        have hHeld := hLeast held List.mem_cons_self
        rw [hRound]
        refine ⟨id, ?_, hFold, ?_⟩
        · rcases List.mem_cons.mp hId with rfl | hRest
          · exact List.mem_cons_self
          · exact List.mem_cons_of_mem _
              (List.mem_cons_of_mem _ hRest)
        · intro other hOther
          rcases List.mem_cons.mp hOther with rfl | hRest
          · exact hHeld
          rcases List.mem_cons.mp hRest with rfl | hLater
          · exact hHeld.trans hLow
          · exact hLeast other
              (List.mem_cons_of_mem _ hLater)

theorem worstBy_least
    (hLinked : pool.Linked)
    (hWeights : pool.exactWeight < 2 ^ 64)
    (orders : pool.Orders) :
    (worstBy orders = none ∧ pool.wtxids = []) ∨
      ∃ id ∈ pool.wtxids,
        worstBy orders = some (pool.candidate id) ∧
          ∀ other ∈ pool.wtxids,
            (pool.candidate id).cost ≤
              (pool.candidate other).cost := by
  have hMem := fun id => orders.keys_perm.mem_iff (a := id)
  rw [worstBy_eq]
  cases hKeys : orders.keys with
  | nil =>
      have hNone := orders.keys_perm
      rw [hKeys] at hNone
      exact .inl ⟨rfl, hNone.symm.eq_nil⟩
  | cons first ids =>
      rcases foldl_worse_least hLinked hWeights ids first with
        ⟨id, hId, hFold, hLeast⟩
      rw [hKeys] at hMem
      refine .inr ⟨id, (hMem id).mp hId, hFold, ?_⟩
      intro other hOther
      exact hLeast other ((hMem other).mpr hOther)

/- The least candidate is the same for all orders. -/
theorem worstBy_same
    {after : Mempool}
    (hSame : pool.Same after)
    (hLinked : pool.Linked)
    (hWeights : pool.exactWeight < 2 ^ 64)
    (orders : pool.Orders)
    (others : after.Orders) :
    worstBy others = worstBy orders := by
  have hWeightsAfter : after.exactWeight < 2 ^ 64 := by
    have hEqual : after.exactWeight = pool.exactWeight :=
      Table.total_congr hSame.entries
    omega
  have hCandidate :
      ∀ id, after.candidate id = pool.candidate id := by
    intro id
    have hPerm : (after.descendantsOf id).Perm
        (pool.descendantsOf id) := hSame.perm_reached _ id
    unfold candidate descendantTotals
    rw [totalsOf_perm after hPerm]
    unfold totalsOf
    simp only [hSame.find]
  rcases worstBy_least hLinked hWeights orders with
    ⟨hNone, hEmpty⟩ | ⟨id, hId, hWorst, hLeast⟩
  · rcases worstBy_least (hSame.linked hLinked) hWeightsAfter
        others with ⟨hAlso, -⟩ | ⟨other, hOther, -, -⟩
    · rw [hNone, hAlso]
    · rw [hSame.mem_wtxids, hEmpty] at hOther
      cases hOther
  · rcases worstBy_least (hSame.linked hLinked) hWeightsAfter
        others with ⟨-, hNone⟩ | ⟨other, hOther, hAlso, hLow⟩
    · rw [← hSame.mem_wtxids, hNone] at hId
      cases hId
    · rw [hSame.mem_wtxids] at hOther
      have hOne := hLeast other hOther
      have hTwo := hLow id ((hSame.mem_wtxids id).mpr hId)
      rw [hCandidate, hCandidate] at hTwo
      have hCost := le_antisymm hOne hTwo
      have hIds : id = other :=
        magnitude_injective
          (Prod.mk.inj (toLex.injective hCost)).2
      rw [hWorst, hAlso, hCandidate, hIds]

end Least

------------------------------------------------------------
-- Exact Packages
------------------------------------------------------------

/- Totals that are the sums, of amounts that were admitted;
   the weights are counted in 64 bits. -/
structure ExactTotals
    (pool : Mempool) : Prop where
  weight : (pool.totalWeight : Int) = pool.exactWeight
  fees : pool.totalFees.toInt = pool.exactFees
  heavy :
    ∀ id links, pool.entries.lookup id = some links →
      0 < links.entry.weight
  paid :
    ∀ id links, pool.entries.lookup id = some links →
      0 ≤ links.entry.fee.toInt
  room : pool.exactWeight < 2 ^ 64

/- What an entry and its descendants pay. -/
def packageFees
    (pool : Mempool)
    (id : Hash256) : Int :=
  ((pool.descendantsOf id).map pool.feeAt).sum

/- What an entry and its descendants weigh. -/
def packageSize
    (pool : Mempool)
    (id : Hash256) : Int :=
  ((pool.descendantsOf id).map pool.weightAt).sum

/- No package of the pool has a lower rate. -/
def Cheapest
    (pool : Mempool)
    (id : Hash256) : Prop :=
  pool.contains id = true ∧
    ∀ other, pool.contains other = true →
      pool.packageFees id * pool.packageSize other ≤
        pool.packageFees other * pool.packageSize id

section Packages

variable {pool : Mempool}

theorem totalsOf_fee
    (pool : Mempool)
    (ids : List Hash256) :
    (pool.totalsOf ids).1 =
      Int64.ofInt (ids.map pool.feeAt).sum := by
  induction ids using List.reverseRecOn with
  | nil => rfl
  | append_singleton ids id ih =>
      unfold totalsOf at ih ⊢
      rw [List.foldl_append, List.foldl_cons, List.foldl_nil,
        List.map_append, List.sum_append, List.map_singleton,
        List.sum_singleton, Int64.ofInt_add, ← ih]
      unfold feeAt amountAt
      cases pool.find id with
      | none => exact (Int64.add_zero _).symm
      | some entry =>
          change _ + entry.fee = _ + Int64.ofInt entry.fee.toInt
          rw [Int64.ofInt_toInt]

theorem ExactTotals.feeAt_nonneg
    (hTotals : pool.ExactTotals)
    (id : Hash256) :
    0 ≤ pool.feeAt id := by
  unfold feeAt amountAt find
  cases hFound : pool.entries.lookup id with
  | none => exact Int.le_refl 0
  | some links => exact hTotals.paid id links hFound

theorem ExactTotals.weightAt_pos
    (hTotals : pool.ExactTotals)
    {id : Hash256}
    (hContains : pool.contains id = true) :
    0 < pool.weightAt id := by
  rcases contains_iff.mp hContains with ⟨links, hFound⟩
  unfold weightAt amountAt find
  rw [hFound]
  exact Int.natCast_pos.mpr (hTotals.heavy id links hFound)

theorem exactFees_left
    (hTotals : pool.ExactTotals)
    (hLinked : pool.Linked)
    (ids : List Hash256) :
    0 ≤ (pool.unlinkAll ids).exactFees := by
  apply Table.total_nonneg
  intro id links hFound
  rcases (entry_unlinkAll hLinked hFound).2 with
    ⟨old, hOld, hEntry⟩
  rw [hEntry]
  exact hTotals.paid id old hOld

theorem exactFees_left_le
    (hLinked : pool.Linked)
    (hPaid :
      ∀ id links, pool.entries.lookup id = some links →
        0 ≤ links.entry.fee.toInt)
    (ids : List Hash256) :
    (pool.unlinkAll ids).exactFees ≤ pool.exactFees := by
  induction ids generalizing pool with
  | nil => exact Int.le_refl _
  | cons id ids ih =>
      have hNext :
          ∀ other links,
            (pool.unlink id).entries.lookup other =
                some links →
              0 ≤ links.entry.fee.toInt := by
        intro other links hFound
        rcases hLinked.lookup_unlink_eq_some.mp hFound with
          ⟨-, old, hOld, rfl⟩
        exact hPaid other old hOld
      have hRest := ih (hLinked.unlink id) hNext
      refine hRest.trans ?_
      cases hFound : pool.entries.lookup id with
      | none => rw [unlink_of_absent hFound]
      | some doomed =>
          have hTotal :=
            total_unlink (fun entry => entry.fee.toInt) hFound
          have hFee := hPaid id doomed hFound
          unfold exactFees
          omega

/- The fees of a package are summed without a wrap. -/
theorem candidate_fee
    (hTotals : pool.ExactTotals)
    (hLinked : pool.Linked)
    (id : Hash256) :
    (pool.candidate id).fee.toInt = pool.packageFees id ∧
      0 ≤ pool.packageFees id := by
  have hNodup : (pool.descendantsOf id).Nodup :=
    nodup_reached _ pool id
  have hSum := total_unlinkAll
    (fun entry => entry.fee.toInt) hLinked hNodup
  have hRest :=
    exactFees_left hTotals hLinked (pool.descendantsOf id)
  have hLow : 0 ≤ pool.packageFees id := by
    apply List.sum_nonneg
    intro fee hFee
    rcases List.mem_map.mp hFee with ⟨other, -, rfl⟩
    exact hTotals.feeAt_nonneg other
  have hMost : pool.totalFees.toInt < 2 ^ 63 :=
    Int64.toInt_lt pool.totalFees
  have hHigh : pool.packageFees id < 2 ^ 63 := by
    have hFees := hTotals.fees
    unfold exactFees at hFees hRest
    unfold packageFees feeAt
    omega
  refine ⟨?_, hLow⟩
  change (pool.totalsOf (pool.descendantsOf id)).1.toInt = _
  rw [totalsOf_fee]
  exact Int64.toInt_ofInt_of_le
    ((show (-2 ^ 63 : Int) ≤ 0 by decide).trans hLow) hHigh

theorem candidate_weight
    (pool : Mempool)
    (id : Hash256) :
    ((pool.candidate id).weight : Int) =
      pool.packageSize id := by
  change ((pool.totalsOf (pool.descendantsOf id)).2 : Int) = _
  rw [totalsOf_weight]
  exact (sum_weightAt pool _).symm

theorem packageSize_pos
    (hTotals : pool.ExactTotals)
    (hLinked : pool.Linked)
    {id : Hash256}
    (hContains : pool.contains id = true) :
    0 < pool.packageSize id := by
  have hSelf : id ∈ pool.descendantsOf id :=
    mem_reached.mpr ⟨hContains, .refl⟩
  have hMember :=
    List.mem_map_of_mem (f := pool.weightAt) hSelf
  apply List.sum_pos _ _ (List.ne_nil_of_mem hMember)
  intro weight hWeight
  rcases List.mem_map.mp hWeight with ⟨other, hOther, rfl⟩
  exact hTotals.weightAt_pos
    (hLinked.contains_descendant hOther)

/- What costs the least has the least rate. -/
theorem cheapest_of_cost
    (hTotals : pool.ExactTotals)
    (hLinked : pool.Linked)
    {id : Hash256}
    (hId : id ∈ pool.wtxids)
    (hLeast :
      ∀ other ∈ pool.wtxids,
        (pool.candidate id).cost ≤
          (pool.candidate other).cost) :
    pool.Cheapest id := by
  have hContains := mem_wtxids.mp hId
  refine ⟨hContains, ?_⟩
  intro other hOther
  have hCost := hLeast other (mem_wtxids.mpr hOther)
  have hRate :
      (pool.candidate id).rate ≤
        (pool.candidate other).rate := by
    rcases (Prod.Lex.toLex_le_toLex.mp hCost) with
      hLess | ⟨hSame, -⟩
    · exact hLess.le
    · exact hSame.le
  rcases candidate_fee hTotals hLinked id with
    ⟨hFee, hNonneg⟩
  rcases candidate_fee hTotals hLinked other with
    ⟨hOtherFee, hOtherNonneg⟩
  have hSize := packageSize_pos hTotals hLinked hContains
  have hOtherSize := packageSize_pos hTotals hLinked hOther
  have hWeight := candidate_weight pool id
  have hOtherWeight := candidate_weight pool other
  have hScaled := scaledFee_toNat (hFee ▸ hNonneg)
  have hOtherScaled :=
    scaledFee_toNat (hOtherFee ▸ hOtherNonneg)
  unfold Candidate.rate at hRate
  rw [feerate_of_pos _ (by omega), feerate_of_pos _ (by omega),
    WithBot.coe_le_coe, div_le_div_iff₀
      (by exact_mod_cast (by omega :
        0 < (pool.candidate id).weight))
      (by exact_mod_cast (by omega :
        0 < (pool.candidate other).weight))] at hRate
  have hCross :
      ((scaledFee (pool.candidate id).fee).toNat : Int) *
          (pool.candidate other).weight ≤
        (scaledFee (pool.candidate other).fee).toNat *
          (pool.candidate id).weight := by
    exact_mod_cast hRate
  rw [hScaled, hOtherScaled, hFee, hOtherFee, hWeight,
    hOtherWeight] at hCross
  exact hCross

theorem ExactTotals.unlinkAll
    (hTotals : pool.ExactTotals)
    (hLinked : pool.Linked)
    (ids : List Hash256) :
    (pool.unlinkAll ids).ExactTotals := by
  have hWeight := totalWeight_unlinkAll pool ids
  have hLess := exactWeight_unlinkAll_le pool ids
  have hRest : 0 ≤ (pool.unlinkAll ids).exactWeight :=
    Table.total_nonneg fun _ _ _ => Int.natCast_nonneg _
  have hBefore := hTotals.weight
  have hRoom := hTotals.room
  have hFees := totalFees_unlinkAll pool ids
  have hFeesRest := exactFees_left hTotals hLinked ids
  have hFeesLess :=
    exactFees_left_le hLinked hTotals.paid ids
  have hMost : pool.totalFees.toInt < 2 ^ 63 :=
    Int64.toInt_lt pool.totalFees
  constructor
  · omega
  · have hBefore : pool.totalFees =
        Int64.ofInt pool.exactFees := by
      rw [← hTotals.fees, Int64.ofInt_toInt]
    have hLeft :
        (pool.unlinkAll ids).totalFees =
          Int64.ofInt (pool.unlinkAll ids).exactFees := by
      rw [hFees, hBefore, ← Int64.ofInt_sub]
      congr 1
      omega
    rw [hTotals.fees] at hMost
    rw [hLeft]
    exact Int64.toInt_ofInt_of_le
      ((show (-2 ^ 63 : Int) ≤ 0 by decide).trans hFeesRest)
      (by omega)
  · intro id links hFound
    rcases (entry_unlinkAll hLinked hFound).2 with
      ⟨old, hThere, hEntry⟩
    rw [hEntry]
    exact hTotals.heavy id old hThere
  · intro id links hFound
    rcases (entry_unlinkAll hLinked hFound).2 with
      ⟨old, hThere, hEntry⟩
    rw [hEntry]
    exact hTotals.paid id old hThere
  · omega

------------------------------------------------------------
-- Rounds
------------------------------------------------------------

/- A round takes out one entry and its descendants. -/
structure Round
    (pool : Mempool)
    (id : Hash256)
    (after : Mempool) : Prop where
  cheapest : pool.Cheapest id
  left :
    ∀ other,
      after.find other =
        if other ∈ pool.descendantsOf id then none
        else pool.find other

/- The rounds of a trim, until nothing more has to go. -/
inductive Evicts
    (target : Nat) :
    Mempool → List Hash256 → Mempool → Prop where
  | done
      {pool : Mempool}
      (hDone : pool.totalWeight ≤ target ∨ pool.wtxids = []) :
      Evicts target pool [] pool
  | round
      {pool after final : Mempool}
      {id : Hash256}
      {ids : List Hash256}
      (hHeavy : target < pool.totalWeight)
      (hRound : pool.Round id after)
      (hRest : Evicts target after ids final) :
      Evicts target pool (id :: ids) final

theorem removeRecursiveBy_round
    (hLinked : pool.Linked)
    (orders : pool.Orders)
    {id : Hash256}
    (hCheapest : pool.Cheapest id) :
    pool.Round id (removeRecursiveBy orders id).2 := by
  refine ⟨hCheapest, ?_⟩
  intro other
  change (pool.unlinkAll (orders.dropped id)).find other = _
  rw [find_unlinkAll hLinked]
  simp only [(orders.dropped_perm id).mem_iff]

theorem length_removeRecursiveBy
    (orders : pool.Orders)
    {id : Hash256}
    (hId : id ∈ pool.wtxids) :
    (removeRecursiveBy orders id).2.wtxids.length <
      pool.wtxids.length := by
  have hContains := mem_wtxids.mp hId
  have hSelf : id ∈ orders.dropped id :=
    (orders.dropped_perm id).mem_iff.mpr
      (mem_reached.mpr ⟨hContains, .refl⟩)
  exact length_unlinkAll_lt hSelf hContains

/- As many rounds as there are entries are enough. -/
theorem trimRoundsBy_evicts
    (walk : ∀ pool : Mempool, pool.Orders)
    (target rounds : Nat)
    (state : Nat × Mempool)
    (hLinked : state.2.Linked)
    (hTotals : state.2.ExactTotals)
    (hRounds : state.2.wtxids.length ≤ rounds) :
    ∃ ids,
      Evicts target state.2 ids
        (trimRoundsBy walk target rounds state).2 := by
  induction rounds generalizing state with
  | zero =>
      have hEmpty : state.2.wtxids = [] :=
        List.length_eq_zero_iff.mp (Nat.le_zero.mp hRounds)
      exact ⟨[], .done (.inr hEmpty)⟩
  | succ rounds ih =>
      unfold trimRoundsBy
      by_cases hHeavy : state.2.totalWeight > target
      · rw [if_pos hHeavy]
        rcases worstBy_least hLinked hTotals.room
            (walk state.2) with
          ⟨hNone, hEmpty⟩ | ⟨id, hId, hWorst, hLeast⟩
        · rw [hNone]
          exact ⟨[], .done (.inr hEmpty)⟩
        · rw [hWorst]
          have hLess := length_removeRecursiveBy
            (walk state.2) hId
          rcases ih
              (state.1 +
                  (removeRecursiveBy (walk state.2) id).1,
                (removeRecursiveBy (walk state.2) id).2)
              (hLinked.unlinkAll _)
              (hTotals.unlinkAll hLinked _)
              (Nat.le_of_lt_succ (hLess.trans_le hRounds)) with
            ⟨ids, hRest⟩
          exact ⟨id :: ids, .round hHeavy
            (removeRecursiveBy_round hLinked _
              (cheapest_of_cost hTotals hLinked hId hLeast))
            hRest⟩
      · rw [if_neg hHeavy]
        exact ⟨[], .done (.inl (Nat.le_of_not_lt hHeavy))⟩

theorem Evicts.stops
    {target : Nat}
    {final : Mempool}
    {ids : List Hash256}
    (hEvicts : Evicts target pool ids final) :
    final.totalWeight ≤ target ∨ final.wtxids = [] := by
  induction hEvicts with
  | done hDone => exact hDone
  | round _ _ _ ih => exact ih

theorem trimRoundsBy_prunes
    (walk : ∀ pool : Mempool, pool.Orders)
    (target rounds : Nat)
    (state : Nat × Mempool)
    (hLinked : state.2.Linked) :
    state.2.Prunes
      (trimRoundsBy walk target rounds state).2 := by
  induction rounds generalizing state with
  | zero => exact .refl _
  | succ rounds ih =>
      unfold trimRoundsBy
      split
      · cases worstBy (walk state.2) with
        | none => exact .refl _
        | some worst =>
            exact (removeRecursiveBy_prunes (walk state.2)
              worst.id).trans hLinked
                (ih _ (hLinked.unlinkAll _))
      · exact .refl _

/- Two trims of one pool go the same way. -/
theorem trimRoundsBy_same
    (walk others : ∀ pool : Mempool, pool.Orders)
    (target rounds : Nat)
    {state after : Nat × Mempool}
    (hCount : after.1 = state.1)
    (hSame : state.2.Same after.2)
    (hLinked : state.2.Linked)
    (hRoom : state.2.exactWeight < 2 ^ 64) :
    (trimRoundsBy others target rounds after).1 =
        (trimRoundsBy walk target rounds state).1 ∧
      (trimRoundsBy walk target rounds state).2.Same
        (trimRoundsBy others target rounds after).2 := by
  induction rounds generalizing state after with
  | zero => exact ⟨hCount, hSame⟩
  | succ rounds ih =>
      unfold trimRoundsBy
      rw [hSame.weight, worstBy_same hSame hLinked hRoom
        (walk state.2) (others after.2)]
      by_cases hHeavy : state.2.totalWeight > target
      · rw [if_pos hHeavy, if_pos hHeavy]
        cases worstBy (walk state.2) with
        | none => exact ⟨hCount, hSame⟩
        | some worst =>
            have hPerm :
                ((walk state.2).dropped worst.id).Perm
                  ((others after.2).dropped worst.id) :=
              ((walk state.2).dropped_perm worst.id).trans
                ((hSame.perm_reached _ worst.id).symm.trans
                  ((others after.2).dropped_perm
                    worst.id).symm)
            apply ih
            · change after.1 + _ = state.1 + _
              rw [hCount]
              exact congrArg (state.1 + ·) hPerm.length_eq.symm
            · exact hSame.unlinkAll hLinked
                fun _ => hPerm.mem_iff
            · exact hLinked.unlinkAll _
            · exact (exactWeight_unlinkAll_le state.2
                _).trans_lt hRoom
      · rw [if_neg hHeavy, if_neg hHeavy]
        exact ⟨hCount, hSame⟩

end Packages

/-
  A trim ends light or empty, every round takes out one
  cheapest entry with its descendants, nobody waits for what
  has gone, and all orders give the same pool and count.
-/
theorem trim_evicts
    (pool : Mempool)
    (target : Nat)
    (hLinks : pool.ExactLinks)
    (hTotals : pool.ExactTotals)
    (walk : ∀ pool : Mempool, pool.Orders) :
    ((trimBy walk pool target).2.totalWeight ≤ target ∨
        (trimBy walk pool target).2.wtxids = []) ∧
      (∃ ids,
        Evicts target pool ids
          (trimBy walk pool target).2) ∧
      (∀ id links,
        (trimBy walk pool target).2.entries.lookup id =
            some links →
          ∀ gone entry, pool.find gone = some entry →
            (trimBy walk pool target).2.find gone = none →
              ¬links.entry.names entry.txid) ∧
      ∀ others : ∀ pool : Mempool, pool.Orders,
        (trimBy others pool target).1 =
            (trimBy walk pool target).1 ∧
          (trimBy walk pool target).2.Same
            (trimBy others pool target).2 := by
  have hLinked := hLinks.linked
  rcases trimRoundsBy_evicts walk target pool.wtxids.length
      (0, pool) hLinked hTotals (Nat.le_refl _) with
    ⟨ids, hEvicts⟩
  have hPrunes := trimRoundsBy_prunes walk target
    pool.wtxids.length (0, pool) hLinked
  refine ⟨hEvicts.stops, ⟨ids, hEvicts⟩, ?_, ?_⟩
  · intro id links hFound gone entry hBefore hGone
    exact hPrunes.not_names hLinks hFound hBefore hGone
  · intro others
    exact trimRoundsBy_same walk others target
      pool.wtxids.length rfl (Same.refl pool) hLinked
      hTotals.room

end Mempool

namespace Sample

theorem familyPool_totals : familyPool.ExactTotals where
  weight := familyPool_exact.weight
  fees := familyPool_exact.fees
  heavy := by
    intro id links hFound
    have hAll :
        ∀ entry ∈ familyPool.entries.entries,
          0 < entry.2.entry.weight := by
      decide +kernel
    exact hAll _ (AList.mem_lookup_iff.mp hFound)
  paid := by
    intro id links hFound
    have hAll :
        ∀ entry ∈ familyPool.entries.entries,
          0 ≤ entry.2.entry.fee.toInt := by
      decide +kernel
    exact hAll _ (AList.mem_lookup_iff.mp hFound)
  room := familyPool_weight

/- A target that the two together miss. -/
theorem trim_evicts_family :
    ((familyPool.trim 300).2.totalWeight ≤ 300 ∨
        (familyPool.trim 300).2.wtxids = []) ∧
      ∃ ids,
        Mempool.Evicts 300 familyPool ids
          (familyPool.trim 300).2 := by
  have hTrim := Mempool.trim_evicts familyPool 300
    familyPool_exact.exactLinks familyPool_totals
    Mempool.Orders.listed
  rw [Mempool.trimBy_listed] at hTrim
  exact ⟨hTrim.1, hTrim.2.1⟩

end Sample

end Amarian
