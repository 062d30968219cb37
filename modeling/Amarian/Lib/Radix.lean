import Mathlib.Data.Nat.Digits.Lemmas
import Mathlib.Tactic.Ring

/-
  Numbers written in a base, most significant digit first.

  Key definitions include:
    * `Radix.value`

  Key theorems include:
    * `Radix.value_cons_lt`
    * `Radix.value_set`
-/

------------------------------------------------------------
-- Values
------------------------------------------------------------

namespace Radix

variable {base : Nat}

/- The digits with the highest first. -/
def value
    (base : Nat)
    (digits : List Nat) : Nat :=
  Nat.ofDigits base digits.reverse

@[simp] theorem value_nil : value base [] = 0 :=
  rfl

theorem value_cons
    (digit : Nat)
    (digits : List Nat) :
    value base (digit :: digits) =
      digit * base ^ digits.length + value base digits := by
  rw [value, List.reverse_cons, Nat.ofDigits_append,
    Nat.ofDigits_singleton, List.length_reverse, value]
  ring

theorem value_lt
    {digits : List Nat}
    (hDigits : ∀ digit ∈ digits, digit < base) :
    value base digits < base ^ digits.length := by
  induction digits with
  | nil => simp
  | cons digit digits ih =>
      have hHere := hDigits digit (List.mem_cons_self ..)
      have hRest := ih fun other hOther =>
        hDigits other (List.mem_cons_of_mem _ hOther)
      rw [value_cons, List.length_cons, Nat.pow_succ]
      have hTop := Nat.mul_le_mul_right
        (base ^ digits.length) (Nat.succ_le_of_lt hHere)
      rw [Nat.succ_mul, Nat.mul_comm base] at hTop
      omega

/- The first digit that differs decides. -/
theorem value_cons_lt
    {first second : Nat}
    {firsts seconds : List Nat}
    (hFirsts : ∀ digit ∈ firsts, digit < base)
    (hSeconds : ∀ digit ∈ seconds, digit < base)
    (hLength : firsts.length = seconds.length) :
    value base (first :: firsts) <
        value base (second :: seconds) ↔
      first < second ∨
        (first = second ∧
          value base firsts < value base seconds) := by
  have hLow := value_lt hFirsts
  have hHigh := value_lt hSeconds
  rw [value_cons, value_cons, hLength]
  rw [hLength] at hLow
  generalize base ^ seconds.length = place at hLow hHigh ⊢
  rcases Nat.lt_trichotomy first second with
    hLess | rfl | hMore
  · have hTop := Nat.mul_le_mul_right place hLess
    rw [Nat.succ_mul] at hTop
    constructor
    · exact fun _ => .inl hLess
    · intro _
      omega
  · constructor
    · intro hLess
      exact .inr ⟨rfl, by omega⟩
    · rintro (hLess | ⟨-, hLess⟩)
      · omega
      · omega
  · have hTop := Nat.mul_le_mul_right place hMore
    rw [Nat.succ_mul] at hTop
    constructor
    · intro hLess
      omega
    · rintro (hLess | ⟨hSame, -⟩)
      · omega
      · omega

/- Overwriting a zero adds the digit at its place. -/
theorem value_set
    {digits : List Nat}
    {index : Nat}
    (hIndex : index < digits.length)
    (hZero : digits[index] = 0)
    (digit : Nat) :
    value base (digits.set index digit) =
      value base digits +
        digit * base ^ (digits.length - 1 - index) := by
  induction digits generalizing index with
  | nil => cases hIndex
  | cons first digits ih =>
      cases index with
      | zero =>
          rw [List.getElem_cons_zero] at hZero
          rw [List.set_cons_zero, value_cons, value_cons,
            hZero]
          simp [Nat.add_comm]
      | succ index =>
          rw [List.getElem_cons_succ] at hZero
          rw [List.set_cons_succ, value_cons, value_cons,
            ih (Nat.lt_of_succ_lt_succ hIndex) hZero,
            List.length_set, List.length_cons]
          rw [show digits.length + 1 - 1 - (index + 1) =
            digits.length - 1 - index by omega]
          omega

end Radix
