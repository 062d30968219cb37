import Mathlib.Algebra.Order.BigOperators.Group.List
import Mathlib.Data.List.Perm.Subperm
import Mathlib.Data.Nat.Find

/-
  Taking the largest members of a collection first.

  What has to be reached may grow with every member taken.
  Some members reach it exactly if the largest ones do.

  Key definitions include:
    * `Greedy.value`
    * `Greedy.Reached`
    * `Greedy.Fewest`

  Key theorems include:
    * `Greedy.value_le_front`
    * `Greedy.Fewest.le_length`
    * `Greedy.exists_fewest`
-/

------------------------------------------------------------
-- The Front Of A Descending List
------------------------------------------------------------

namespace Amarian

namespace Greedy

section Values

variable {α M : Type} [AddCommMonoid M]

/- What a choice is worth in all. -/
def value
    (worth : α → M)
    (members : List α) : M :=
  (members.map worth).sum

variable {worth : α → M}

@[simp] theorem value_nil :
    value worth [] = 0 :=
  rfl

@[simp] theorem value_cons
    (member : α)
    (members : List α) :
    value worth (member :: members) =
      worth member + value worth members :=
  List.sum_cons

theorem value_perm
    {members others : List α}
    (hPerm : members.Perm others) :
    value worth members = value worth others :=
  (hPerm.map worth).sum_eq

variable [PartialOrder M] [IsOrderedAddMonoid M]

/- The list shifts by one, and nothing in it rises. -/
theorem value_take_le_cons
    {first : α}
    {rest : List α}
    (hDescending :
      (first :: rest).Pairwise
        fun member next => worth next ≤ worth member)
    {count : Nat}
    (hWithin : count ≤ rest.length) :
    value worth (rest.take count) ≤
      value worth ((first :: rest).take count) := by
  induction count generalizing first rest with
  | zero => exact le_rfl
  | succ count ih =>
      cases rest with
      | nil => cases hWithin
      | cons next rest =>
          rcases List.pairwise_cons.mp hDescending with
            ⟨hFirst, hRest⟩
          have hLater := ih hRest
            (Nat.le_of_succ_le_succ hWithin)
          simp only [List.take_succ_cons, value_cons]
          exact add_le_add
            (hFirst next List.mem_cons_self) hLater

/-
  By induction on how they were chosen, some members are
  worth no more than as many from the front.
-/
theorem value_sublist_le
    {members chosen : List α}
    (hDescending :
      members.Pairwise
        fun member next => worth next ≤ worth member)
    (hChosen : chosen.Sublist members) :
    value worth chosen ≤
      value worth (members.take chosen.length) := by
  induction hChosen with
  | slnil => exact le_rfl
  | cons first hRest ih =>
      have hLater := (List.pairwise_cons.mp hDescending).2
      calc
        value worth _ ≤ _ := ih hLater
        _ ≤ _ := value_take_le_cons hDescending hRest.length_le
  | cons_cons first hRest ih =>
      have hLater := (List.pairwise_cons.mp hDescending).2
      rw [List.length_cons, List.take_succ_cons, value_cons,
        value_cons]
      exact add_le_add_right (ih hLater) _

/- The same of a choice in any order. -/
theorem value_le_front
    {members sorted chosen : List α}
    (hPerm : sorted.Perm members)
    (hDescending :
      sorted.Pairwise
        fun member next => worth next ≤ worth member)
    (hChosen : chosen.Subperm members) :
    value worth chosen ≤
      value worth (sorted.take chosen.length) := by
  rcases hChosen.trans hPerm.symm.subperm with
    ⟨ordered, hSame, hSublist⟩
  rw [← value_perm hSame, ← hSame.length_eq]
  exact value_sublist_le hDescending hSublist

end Values

------------------------------------------------------------
-- The Fewest Members
------------------------------------------------------------

section Fewest

variable {α M : Type} [AddCommMonoid M] [LinearOrder M]

/- So many members are worth what so many have to be. -/
def Reached
    (worth : α → M)
    (need : Nat → M)
    (chosen : List α) : Prop :=
  need chosen.length ≤ value worth chosen

/- The least number from the front that reaches its need. -/
structure Fewest
    (worth : α → M)
    (need : Nat → M)
    (sorted : List α)
    (count : Nat) : Prop where
  positive : 0 < count
  within : count ≤ sorted.length
  reached : need count ≤ value worth (sorted.take count)
  least :
    ∀ fewer, 0 < fewer → fewer < count →
      ¬need fewer ≤ value worth (sorted.take fewer)

variable {worth : α → M} {need : Nat → M}
variable {members sorted : List α}

/- A front is itself a choice. -/
theorem reached_front
    (hPerm : sorted.Perm members)
    {count : Nat}
    (hPositive : 0 < count)
    (hWithin : count ≤ sorted.length)
    (hReached : need count ≤ value worth (sorted.take count)) :
    (sorted.take count).Subperm members ∧
      sorted.take count ≠ [] ∧
      Reached worth need (sorted.take count) := by
  have hLength : (sorted.take count).length = count := by
    rw [List.length_take, Nat.min_eq_left hWithin]
  refine ⟨?_, ?_, ?_⟩
  · exact (List.take_sublist count sorted).subperm.trans
      hPerm.subperm
  · intro hNone
    rw [hNone] at hLength
    exact absurd hLength.symm (Nat.ne_of_gt hPositive)
  · rw [Reached, hLength]
    exact hReached

variable [IsOrderedAddMonoid M]

theorem Fewest.le_length
    (hPerm : sorted.Perm members)
    (hDescending :
      sorted.Pairwise
        fun member next => worth next ≤ worth member)
    {count : Nat}
    (hCount : Fewest worth need sorted count)
    {chosen : List α}
    (hChosen : chosen.Subperm members)
    (hSome : chosen ≠ [])
    (hReached : Reached worth need chosen) :
    count ≤ chosen.length := by
  by_contra hLess
  refine hCount.least chosen.length
    (List.length_pos_iff.mpr hSome) (by omega) ?_
  exact le_trans hReached
    (value_le_front hPerm hDescending hChosen)

/- Whatever members reach their need, some front does. -/
theorem exists_fewest
    (hPerm : sorted.Perm members)
    (hDescending :
      sorted.Pairwise
        fun member next => worth next ≤ worth member)
    {chosen : List α}
    (hChosen : chosen.Subperm members)
    (hSome : chosen ≠ [])
    (hReached : Reached worth need chosen) :
    ∃ count, Fewest worth need sorted count := by
  classical
  have hFound :
      ∃ count, 0 < count ∧ count ≤ sorted.length ∧
        need count ≤ value worth (sorted.take count) := by
    refine ⟨chosen.length, List.length_pos_iff.mpr hSome,
      ?_, ?_⟩
    · rw [hPerm.length_eq]
      exact hChosen.length_le
    · exact le_trans hReached
        (value_le_front hPerm hDescending hChosen)
  rcases Nat.find_spec hFound with
    ⟨hPositive, hWithin, hReaches⟩
  refine ⟨Nat.find hFound, hPositive, hWithin, hReaches, ?_⟩
  intro fewer hFewer hLess hEarlier
  refine Nat.find_min hFound hLess ⟨hFewer, ?_, hEarlier⟩
  omega

end Fewest

end Greedy

end Amarian
