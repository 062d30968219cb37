import Mathlib.Algebra.Ring.Nat
import Mathlib.Data.Nat.Basic
import Mathlib.Tactic.Common

/-
  Decimal numerals as bytes.

  Key definitions include:
    * `Decimal.digits`

  Key theorems include:
    * `Decimal.digits_of_lt`
    * `Decimal.digits_of_le`
    * `Decimal.mem_digits`
-/

namespace Decimal

/- A number as text, without leading zeros. -/
def digits
    (value : Nat) : List UInt8 :=
  (Nat.toDigits 10 value).map fun digit =>
    UInt8.ofNat digit.toNat

variable {value : Nat}

theorem digit_toNat
    (hDigit : value < 10) :
    UInt8.ofNat (Nat.digitChar value).toNat =
      48 + UInt8.ofNat value := by
  revert value
  decide

theorem digits_of_lt
    (hDigit : value < 10) :
    digits value = [48 + UInt8.ofNat value] := by
  rw [digits, Nat.toDigits_of_lt_base hDigit, List.map_cons,
    List.map_nil, digit_toNat hDigit]

theorem digits_of_le
    (hLong : 10 ≤ value) :
    digits value =
      digits (value / 10) ++
        [48 + UInt8.ofNat (value % 10)] := by
  rw [digits, Nat.toDigits_of_base_le (by decide) hLong,
    List.map_append, List.map_cons, List.map_nil,
    digit_toNat (Nat.mod_lt _ (by decide)), digits]

theorem digits_ne_nil
    (value : Nat) :
    digits value ≠ [] := by
  rw [digits, ne_eq, List.map_eq_nil_iff]
  exact Nat.toDigits_ne_nil

theorem length_digits_le
    {size : Nat}
    (hSize : 0 < size)
    (hValue : value < 10 ^ size) :
    (digits value).length ≤ size := by
  rw [digits, List.length_map]
  exact (Nat.length_toDigits_le_iff (by decide) hSize).mpr
    hValue

theorem mem_digits
    {byte : UInt8}
    (hByte : byte ∈ digits value) :
    48 ≤ byte ∧ byte ≤ 57 := by
  induction value using Nat.strong_induction_on with
  | h value ih =>
      have hLast : ∀ last < 10,
          48 ≤ 48 + UInt8.ofNat last ∧
            48 + UInt8.ofNat last ≤ 57 := by
        decide
      rcases Nat.lt_or_ge value 10 with hSmall | hLong
      · rw [digits_of_lt hSmall, List.mem_singleton] at hByte
        rw [hByte]
        exact hLast value hSmall
      · rw [digits_of_le hLong, List.mem_append,
          List.mem_singleton] at hByte
        rcases hByte with hFront | rfl
        · exact ih (value / 10) (by omega) hFront
        · exact hLast _ (Nat.mod_lt _ (by decide))

end Decimal
