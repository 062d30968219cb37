import Amarian.Mempool.Sound

/-
  Every removal drops entries one by one, and trimming ends
  under its target.

  Key definitions include:
    * `Mempool.Sheds`

  Key theorems include:
    * `Mempool.removeForBlock_sheds`
    * `Mempool.removeForReorg_sheds`
    * `Mempool.trim_sheds`
    * `Mempool.Sound.trim_light`
-/

------------------------------------------------------------
-- Shedding
------------------------------------------------------------

namespace Amarian

namespace Mempool

/- The pool after some of its entries were dropped. -/
def Sheds
    (pool after : Mempool) : Prop :=
  ∃ ids, after = pool.unlinkAll ids

namespace Sheds

theorem refl
    (pool : Mempool) :
    pool.Sheds pool :=
  ⟨[], rfl⟩

theorem trans
    {pool middle after : Mempool}
    (hFirst : pool.Sheds middle)
    (hSecond : middle.Sheds after) :
    pool.Sheds after := by
  rcases hFirst with ⟨ids, rfl⟩
  rcases hSecond with ⟨more, rfl⟩
  exact ⟨ids ++ more, (List.foldl_append ..).symm⟩

/- A loop whose rounds only drop entries. -/
theorem foldl
    {α : Type}
    {round : Nat × Mempool → α → Nat × Mempool}
    (hRound :
      ∀ state a, Sheds state.2 (round state a).2)
    (items : List α)
    (state : Nat × Mempool) :
    Sheds state.2 (items.foldl round state).2 := by
  induction items generalizing state with
  | nil => exact refl state.2
  | cons item items ih =>
      exact (hRound state item).trans (ih (round state item))

theorem sound
    {c : Crypto}
    {pool after : Mempool}
    (hSheds : pool.Sheds after)
    (hSound : pool.Sound c) :
    after.Sound c := by
  rcases hSheds with ⟨ids, rfl⟩
  exact hSound.unlinkAll ids

theorem weight_le
    {pool after : Mempool}
    (hSheds : pool.Sheds after) :
    after.totalWeight ≤ pool.totalWeight := by
  rcases hSheds with ⟨ids, rfl⟩
  induction ids generalizing pool with
  | nil => exact Nat.le_refl _
  | cons id ids ih =>
      have hOne :
          (pool.unlink id).totalWeight ≤
            pool.totalWeight := by
        unfold unlink
        split
        · exact Nat.le_refl _
        · exact Nat.sub_le ..
      have hRest :
          ((pool.unlink id).unlinkAll ids).totalWeight ≤
            (pool.unlink id).totalWeight :=
        ih
      exact hRest.trans hOne

end Sheds

theorem remove_sheds
    (pool : Mempool)
    (id : Hash256) :
    pool.Sheds (pool.remove id) :=
  ⟨[id], rfl⟩

theorem removeRecursive_sheds
    (pool : Mempool)
    (id : Hash256) :
    pool.Sheds (pool.removeRecursive id).2 :=
  ⟨pool.descendantsOf id, rfl⟩

theorem removeForBlock_sheds
    (c : Crypto)
    (pool : Mempool)
    (block : Block) :
    pool.Sheds (pool.removeForBlock c block).2 := by
  have hConfirmed :
      pool.Sheds (removeConfirmed c block pool).2 := by
    apply Sheds.foldl _ block.transactions (0, pool)
    intro state tx
    cases state.2.byTxid (tx.txid c) with
    | none => exact Sheds.refl _
    | some id => exact remove_sheds state.2 id
  apply hConfirmed.trans
  apply Sheds.foldl
  intro state tx
  apply Sheds.foldl
  intro state input
  cases state.2.spentBy input.outpoint with
  | none => exact Sheds.refl _
  | some spender => exact removeRecursive_sheds state.2 spender

theorem removeForReorg_sheds
    (c : Crypto)
    (pool : Mempool)
    (base : Utxo)
    (spendHeight : UInt32)
    (params : ChainParams) :
    pool.Sheds
      (pool.removeForReorg c base spendHeight params).2 := by
  apply Sheds.foldl _ pool.wtxids (0, pool)
  intro state id
  cases state.2.find id with
  | none => exact Sheds.refl _
  | some entry =>
      have hEither :
          ∀ stands : Bool,
            Sheds state.2
              (if stands then state
                else
                  (state.1 + (state.2.removeRecursive id).1,
                    (state.2.removeRecursive id).2)).2 := by
        intro stands
        cases stands with
        | true => exact Sheds.refl _
        | false => exact removeRecursive_sheds state.2 id
      exact hEither _

theorem trimRounds_sheds
    (target rounds : Nat)
    (state : Nat × Mempool) :
    Sheds state.2 (trimRounds target rounds state).2 := by
  induction rounds generalizing state with
  | zero => exact Sheds.refl _
  | succ rounds ih =>
      unfold trimRounds
      split
      · cases state.2.worst with
        | none => exact Sheds.refl _
        | some worst =>
            exact (removeRecursive_sheds state.2
              worst.id).trans (ih _)
      · exact Sheds.refl _

theorem trim_sheds
    (pool : Mempool)
    (target : Nat) :
    pool.Sheds (pool.trim target).2 :=
  trimRounds_sheds target pool.wtxids.length (0, pool)

------------------------------------------------------------
-- Trimming
------------------------------------------------------------

/- One round of the search for the cheapest package. -/
def worse
    (pool : Mempool)
    (worst : Option Candidate)
    (id : Hash256) : Option Candidate :=
  match worst with
  | none => some (pool.candidate id)
  | some held =>
      if (pool.candidate id).isWorse held then
        some (pool.candidate id)
      else
        some held

theorem worst_eq
    (pool : Mempool) :
    pool.worst = pool.wtxids.foldl pool.worse none :=
  rfl

/- The search returns one of the packages it looked at. -/
theorem foldl_worse
    (pool : Mempool)
    (ids : List Hash256)
    (worst : Option Candidate) :
    (ids.foldl pool.worse worst = worst ∧
        (worst = none → ids = [])) ∨
      ∃ id ∈ ids,
        ids.foldl pool.worse worst =
          some (pool.candidate id) := by
  induction ids generalizing worst with
  | nil => exact .inl ⟨rfl, fun _ => rfl⟩
  | cons id ids ih =>
      have hRound :
          (pool.worse worst id = worst ∧ worst ≠ none) ∨
            pool.worse worst id =
              some (pool.candidate id) := by
        unfold worse
        cases worst with
        | none => exact .inr rfl
        | some held =>
            by_cases hWorse :
                (pool.candidate id).isWorse held = true
            · exact .inr (if_pos hWorse)
            · exact .inl ⟨if_neg hWorse, nofun⟩
      rw [List.foldl_cons]
      rcases ih (pool.worse worst id) with
        ⟨hKept, -⟩ | ⟨other, hOther, hFound⟩
      · rw [hKept]
        rcases hRound with ⟨hSame, hSome⟩ | hHere
        · exact .inl ⟨hSame, fun hNone => absurd hNone hSome⟩
        · exact .inr ⟨id, List.mem_cons_self .., hHere⟩
      · exact .inr
          ⟨other, List.mem_cons_of_mem _ hOther, hFound⟩

theorem worst_spec
    (pool : Mempool) :
    (pool.worst = none ∧ pool.wtxids = []) ∨
      ∃ id ∈ pool.wtxids,
        pool.worst = some (pool.candidate id) := by
  rw [worst_eq]
  rcases pool.foldl_worse pool.wtxids none with
    ⟨hNone, hEmpty⟩ | hFound
  · exact .inl ⟨hNone, hEmpty rfl⟩
  · exact .inr hFound

theorem mem_wtxids
    {pool : Mempool}
    {id : Hash256} :
    id ∈ pool.wtxids ↔ pool.contains id = true := by
  rw [contains, AList.lookup_isSome]
  rfl

/- A package cheaper than all others is found wherever it is. -/
theorem worst_of_cheapest
    {pool : Mempool}
    {id : Hash256}
    (hId : pool.contains id = true)
    (hCheapest :
      ∀ other, pool.contains other = true → other ≠ id →
        (pool.candidate id).isWorse
            (pool.candidate other) = true ∧
          (pool.candidate other).isWorse
            (pool.candidate id) = false) :
    pool.worst = some (pool.candidate id) := by
  -- the package was found, or is still to come
  have hSearch :
      ∀ (ids : List Hash256) (worst : Option Candidate),
        (∀ other ∈ ids, pool.contains other = true) →
        (worst = some (pool.candidate id) ∨
          (id ∈ ids ∧
            ∀ held, worst = some held →
              ∃ other, pool.contains other = true ∧
                other ≠ id ∧
                held = pool.candidate other)) →
        ids.foldl pool.worse worst =
          some (pool.candidate id) := by
    intro ids
    induction ids with
    | nil =>
        rintro worst - (hFound | ⟨hNone, -⟩)
        · exact hFound
        · cases hNone
    | cons next ids ih =>
        intro worst hInside hState
        rw [List.forall_mem_cons] at hInside
        rw [List.foldl_cons]
        apply ih _ hInside.2
        rcases hState with rfl | ⟨hMember, hOther⟩
        · by_cases hSame : next = id
          · refine .inl ?_
            unfold worse
            rw [hSame]
            exact ite_self _
          · refine .inl (if_neg ?_)
            rw [(hCheapest next hInside.1 hSame).2]
            exact Bool.false_ne_true
        · by_cases hSame : next = id
          · refine .inl ?_
            rw [hSame]
            cases worst with
            | none => rfl
            | some held =>
                rcases hOther held rfl with
                  ⟨other, hThere, hNe, rfl⟩
                exact if_pos (hCheapest other hThere hNe).1
          · refine .inr ⟨?_, ?_⟩
            · exact (List.mem_cons.mp hMember).resolve_left
                (Ne.symm hSame)
            · intro held hHeld
              unfold worse at hHeld
              cases worst with
              | none =>
                  cases hHeld
                  exact ⟨next, hInside.1, hSame, rfl⟩
              | some old =>
                  dsimp only at hHeld
                  split at hHeld
                  · cases hHeld
                    exact ⟨next, hInside.1, hSame, rfl⟩
                  · cases hHeld
                    exact hOther _ rfl
  rw [worst_eq]
  apply hSearch
  · exact fun other hOther => mem_wtxids.mp hOther
  · exact .inr ⟨mem_wtxids.mpr hId, nofun⟩

/- How many entries there are, as a sum over them. -/
theorem length_wtxids
    (pool : Mempool) :
    (pool.wtxids.length : Int) =
      Table.total (fun _ => 1) pool.entries := by
  simp [wtxids, Table.total, AList.keys, List.keys]

theorem length_unlink
    (pool : Mempool)
    (id : Hash256) :
    (pool.unlink id).wtxids.length =
      if pool.contains id then pool.wtxids.length - 1
      else pool.wtxids.length := by
  cases hFound : pool.entries.lookup id with
  | none =>
      rw [unlink_of_absent hFound, if_neg (by
        rw [contains, hFound]
        exact Bool.false_ne_true)]
  | some doomed =>
      rw [if_pos (contains_iff.mpr ⟨doomed, hFound⟩)]
      have hTotal := total_unlink (fun _ => 1) hFound
      rw [← length_wtxids, ← length_wtxids] at hTotal
      omega

theorem length_unlinkAll_le
    (pool : Mempool)
    (ids : List Hash256) :
    (pool.unlinkAll ids).wtxids.length ≤
      pool.wtxids.length := by
  induction ids generalizing pool with
  | nil => exact Nat.le_refl _
  | cons id ids ih =>
      apply (ih (pool.unlink id)).trans
      rw [length_unlink]
      split <;> omega

theorem length_unlinkAll_lt
    {pool : Mempool}
    {ids : List Hash256}
    {id : Hash256}
    (hMember : id ∈ ids)
    (hContains : pool.contains id = true) :
    (pool.unlinkAll ids).wtxids.length <
      pool.wtxids.length := by
  have hSome : 0 < pool.wtxids.length :=
    List.length_pos_of_mem (mem_wtxids.mpr hContains)
  induction ids generalizing pool with
  | nil => cases hMember
  | cons first ids ih =>
      change ((pool.unlink first).unlinkAll
        ids).wtxids.length < _
      by_cases hHere : pool.contains first = true
      · have hRest :=
          length_unlinkAll_le (pool.unlink first) ids
        rw [length_unlink, if_pos hHere] at hRest
        omega
      · have hNone : pool.entries.lookup first = none := by
          rw [contains, Option.isSome_iff_ne_none,
            not_not] at hHere
          exact hHere
        rw [unlink_of_absent hNone]
        apply ih _ hContains hSome
        rcases List.mem_cons.mp hMember with rfl | hRest
        · exact absurd hContains hHere
        · exact hRest

namespace Sound

variable {c : Crypto} {pool : Mempool}

theorem weight_of_empty
    (hSound : pool.Sound c)
    (hEmpty : pool.wtxids = []) :
    pool.totalWeight = 0 := by
  have hWeight := hSound.weight
  have hNone : pool.entries.entries = [] := by
    rw [← List.map_eq_nil_iff]
    exact hEmpty
  rw [exactWeight, Table.total, hNone] at hWeight
  simpa using hWeight

theorem trimRounds_light
    (target rounds : Nat)
    (state : Nat × Mempool)
    (hSound : state.2.Sound c)
    (hRounds : state.2.wtxids.length ≤ rounds) :
    (trimRounds target rounds state).2.totalWeight ≤
      target := by
  induction rounds generalizing state with
  | zero =>
      have hEmpty : state.2.wtxids = [] :=
        List.length_eq_zero_iff.mp (Nat.le_zero.mp hRounds)
      unfold trimRounds
      rw [hSound.weight_of_empty hEmpty]
      exact Nat.zero_le _
  | succ rounds ih =>
      unfold trimRounds
      split
      · rename_i hHeavy
        rcases state.2.worst_spec with
          ⟨-, hEmpty⟩ | ⟨id, hId, hWorst⟩
        · rw [hSound.weight_of_empty hEmpty] at hHeavy
          exact absurd hHeavy (Nat.not_lt_zero _)
        · rw [hWorst]
          apply ih
          · exact (removeRecursive_sheds state.2 id).sound
              hSound
          · have hContains := mem_wtxids.mp hId
            have hSelf : id ∈ state.2.descendantsOf id :=
              mem_reached.mpr ⟨hContains, .refl⟩
            exact Nat.le_of_lt_succ
              (Nat.lt_of_lt_of_le
                (length_unlinkAll_lt hSelf hContains)
                hRounds)
      · rename_i hLight
        exact Nat.not_lt.mp hLight

theorem trim_light
    (hSound : pool.Sound c)
    (target : Nat) :
    (pool.trim target).2.totalWeight ≤ target :=
  trimRounds_light target pool.wtxids.length (0, pool)
    hSound (Nat.le_refl _)

end Sound

end Mempool

end Amarian
