import Mathlib.Data.List.Sort
import Mathlib.Data.List.Count
import Mathlib.Order.Basic

/-
  The middle of a list once it is sorted.

  Key definitions include:
    * `OrderStatistic.middle`

  Key theorems include:
    * `OrderStatistic.le_sorted_iff`
    * `OrderStatistic.middle_mono`
-/

------------------------------------------------------------
-- Sorted Lists
------------------------------------------------------------

namespace Amarian

namespace OrderStatistic

variable {α : Type} [LinearOrder α]

/- By induction on the list, which is below its tail. -/
theorem le_getElem_iff
    {sorted : List α}
    (hSorted : sorted.Pairwise (· ≤ ·))
    {bound : α}
    {place : Nat}
    (hPlace : place < sorted.length) :
    bound ≤ sorted[place] ↔
      sorted.countP (fun value => decide (value < bound)) ≤
        place := by
  induction sorted generalizing place with
  | nil => cases hPlace
  | cons first rest ih =>
      rcases List.pairwise_cons.mp hSorted with
        ⟨hFirst, hRest⟩
      by_cases hBelow : first < bound
      · rw [List.countP_cons_of_pos (by simpa using hBelow)]
        cases place with
        | zero =>
            rw [List.getElem_cons_zero]
            constructor
            · intro hAbove
              exact absurd hBelow (not_lt.mpr hAbove)
            · intro hNone
              omega
        | succ place =>
            rw [List.getElem_cons_succ, ih hRest]
            omega
      · have hNone :
            (first :: rest).countP
              (fun value => decide (value < bound)) = 0 := by
          rw [List.countP_eq_zero]
          intro value hValue
          rw [decide_eq_true_eq, not_lt]
          rcases List.mem_cons.mp hValue with rfl | hLater
          · exact not_lt.mp hBelow
          · exact (not_lt.mp hBelow).trans
              (hFirst value hLater)
        rw [hNone]
        refine ⟨fun _ => Nat.zero_le _, fun _ => ?_⟩
        have hMember := List.getElem_mem hPlace
        rcases List.mem_cons.mp hMember with hSame | hLater
        · rw [hSame]
          exact not_lt.mp hBelow
        · exact (not_lt.mp hBelow).trans (hFirst _ hLater)

/- What is at a place is told by how many are smaller. -/
theorem le_sorted_iff
    {values : List α}
    {bound : α}
    {place : Nat}
    (hPlace :
      place < (values.insertionSort (· ≤ ·)).length) :
    bound ≤ (values.insertionSort (· ≤ ·))[place] ↔
      values.countP (fun value => decide (value < bound)) ≤
        place := by
  rw [le_getElem_iff (List.pairwise_insertionSort _ values),
    (List.perm_insertionSort (· ≤ ·) values).countP_eq]

------------------------------------------------------------
-- The Middle
------------------------------------------------------------

/- The upper one of the two where the length is even. -/
def middle
    (values : List α)
    (default : α) : α :=
  (values.insertionSort (· ≤ ·)).getD (values.length / 2)
    default

theorem le_middle_iff
    {values : List α}
    (hSome : values ≠ [])
    {bound default : α} :
    bound ≤ middle values default ↔
      values.countP (fun value => decide (value < bound)) ≤
        values.length / 2 := by
  have hPositive := List.length_pos_iff.mpr hSome
  have hPlace :
      values.length / 2 <
        (values.insertionSort (· ≤ ·)).length := by
    rw [List.length_insertionSort]
    omega
  rw [middle, List.getD_eq_getElem?_getD,
    List.getElem?_eq_getElem hPlace, Option.getD_some,
    le_sorted_iff hPlace]

/-
  A window that is not shorter, and that has no value other
  than the old ones but one from the middle on, has its own
  middle no lower.
-/
theorem middle_mono
    {old next : List α}
    {newest default : α}
    (hSome : old ≠ [])
    (hWithin : next.Subperm (newest :: old))
    (hLength : old.length ≤ next.length)
    (hNewest : middle old default ≤ newest) :
    middle old default ≤ middle next default := by
  have hOld :
      old.countP
          (fun value => decide
            (value < middle old default)) ≤
        old.length / 2 :=
    (le_middle_iff hSome).mp (le_refl (middle old default))
  have hNext : next ≠ [] := by
    rw [← List.length_pos_iff] at hSome ⊢
    omega
  rw [le_middle_iff hNext]
  have hCount := hWithin.countP_le
    (fun value => decide (value < middle old default))
  rw [List.countP_cons_of_neg
    (by simpa using hNewest)] at hCount
  omega

end OrderStatistic

end Amarian
