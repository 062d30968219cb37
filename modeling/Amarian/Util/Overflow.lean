import Mathlib.Algebra.BigOperators.Group.List.Basic
import Mathlib.Algebra.Ring.Int.Defs
import Mathlib.Algebra.Ring.Nat
import Mathlib.Tactic.Common

/-
  Checked 64-bit arithmetic and the money range.

  Every attacker-influenced sum of the source goes through
  `CheckedAdd`; the results below say that a sum that is
  reported at all is the exact integer sum.

  Key definitions include:
    * `checkedAdd`
    * `isValidAmount`
    * `sumAmounts`

  Key theorems include:
    * `checkedAdd_eq_some`
    * `sumAmounts_toInt`
-/

------------------------------------------------------------
-- Checked Addition
------------------------------------------------------------

namespace Amarian

/- Whether an integer is representable as an `int64_t`. -/
def FitsInt64
    (value : Int) : Prop :=
  -2 ^ 63 ≤ value ∧ value < 2 ^ 63

instance
    (value : Int) :
    Decidable (FitsInt64 value) := by
  unfold FitsInt64
  infer_instance

/- The sum, unless `__builtin_add_overflow` reports overflow. -/
def checkedAdd
    (a b : Int64) : Option Int64 :=
  if FitsInt64 (a.toInt + b.toInt) then
    some (a + b)
  else
    none

theorem toInt_add_of_fits
    {a b : Int64}
    (hFits : FitsInt64 (a.toInt + b.toInt)) :
    (a + b).toInt = a.toInt + b.toInt := by
  rw [Int64.toInt_add]
  unfold FitsInt64 at hFits
  apply Int.bmod_eq_of_le <;> omega

theorem toInt_sub_of_fits
    {a b : Int64}
    (hFits : FitsInt64 (a.toInt - b.toInt)) :
    (a - b).toInt = a.toInt - b.toInt := by
  rw [Int64.toInt_sub]
  unfold FitsInt64 at hFits
  apply Int.bmod_eq_of_le <;> omega

/- A reported sum is the exact sum. -/
theorem checkedAdd_eq_some
    {a b sum : Int64}
    (hSum : checkedAdd a b = some sum) :
    sum.toInt = a.toInt + b.toInt := by
  unfold checkedAdd at hSum
  split at hSum
  · rename_i hFits
    cases hSum
    exact toInt_add_of_fits hFits
  · cases hSum

------------------------------------------------------------
-- The Money Range
------------------------------------------------------------

/- All facets there will ever be. -/
def maxMoney : Int64 := 83999999932170000

/- Amounts are signed, so both ends are checked. -/
def isValidAmount
    (amount : Int64) : Bool :=
  decide (0 ≤ amount) && decide (amount ≤ maxMoney)

theorem isValidAmount_iff
    (amount : Int64) :
    isValidAmount amount = true ↔
      0 ≤ amount.toInt ∧
        amount.toInt ≤ 83999999932170000 := by
  simp only [isValidAmount, Bool.and_eq_true,
    decide_eq_true_eq, Int64.le_iff_toInt_le]
  exact Iff.rfl

/-
  The summing loop of `TransactionFee` and
  `CheckCoinbaseAmount`: every amount and every running total
  has to stay inside the money range.
-/
def sumAmounts
    (total : Int64) : List Int64 → Option Int64
  | [] => some total
  | amount :: rest =>
      if isValidAmount amount then
        match checkedAdd total amount with
        | none => none
        | some next =>
            if isValidAmount next then
              sumAmounts next rest
            else
              none
      else
        none

/- What one round of the summing loop can do. -/
theorem sumAmounts_cons
    {total amount result : Int64}
    {rest : List Int64}
    (hSum :
      sumAmounts total (amount :: rest) = some result) :
    ∃ next,
      isValidAmount amount = true ∧
        next.toInt = total.toInt + amount.toInt ∧
        isValidAmount next = true ∧
        sumAmounts next rest = some result := by
  simp only [sumAmounts] at hSum
  split at hSum
  · rename_i hAmount
    split at hSum
    · cases hSum
    · rename_i next hNext
      split at hSum
      · rename_i hValid
        exact ⟨next, hAmount, checkedAdd_eq_some hNext,
          hValid, hSum⟩
      · cases hSum
  · cases hSum

/- The loop's result is the exact integer sum. -/
theorem sumAmounts_toInt
    {total result : Int64}
    {amounts : List Int64}
    (hSum : sumAmounts total amounts = some result) :
    result.toInt =
      total.toInt + (amounts.map Int64.toInt).sum := by
  induction amounts generalizing total with
  | nil =>
      cases hSum
      simp
  | cons amount rest ih =>
      rcases sumAmounts_cons hSum with
        ⟨next, _, hNext, _, hRest⟩
      rw [ih hRest, hNext, List.map_cons, List.sum_cons]
      omega

/- A total that starts in the money range ends in it. -/
theorem sumAmounts_valid
    {total result : Int64}
    {amounts : List Int64}
    (hTotal : isValidAmount total = true)
    (hSum : sumAmounts total amounts = some result) :
    isValidAmount result = true := by
  induction amounts generalizing total with
  | nil =>
      cases hSum
      exact hTotal
  | cons amount rest ih =>
      rcases sumAmounts_cons hSum with
        ⟨next, _, _, hNext, hRest⟩
      exact ih hNext hRest

end Amarian
