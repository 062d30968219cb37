import Mathlib.Data.Nat.Digits.Lemmas
import Mathlib.Data.Nat.Bitwise
import Mathlib.Tactic.Ring

/-
  Numbers cut in limbs of one width, least significant first,
  and division of a number one bit after another.

  The bits of a number are the bits of its limbs in a row, so
  a shift of the limbs is a shift of the number as soon as it
  moves every bit to its place.

  Key definitions include:
    * `Limbs.value`
    * `Restoring.Split`
    * `Restoring.Aligned`

  Key theorems include:
    * `Limbs.testBit_value`
    * `Restoring.Split.next`
    * `Restoring.Aligned.take`
-/

------------------------------------------------------------
-- Bits
------------------------------------------------------------

namespace Limbs

variable {width : Nat}

/- The limbs as digits, the lowest first. -/
def value
    (width : Nat)
    (limbs : List Nat) : Nat :=
  Nat.ofDigits (2 ^ width) limbs

@[simp] theorem value_nil : value width [] = 0 :=
  rfl

theorem value_cons
    (limb : Nat)
    (limbs : List Nat) :
    value width (limb :: limbs) =
      2 ^ width * value width limbs + limb := by
  rw [value, Nat.ofDigits_cons, Nat.add_comm]
  rfl

theorem value_lt
    {limbs : List Nat}
    (hLimbs : ∀ limb ∈ limbs, limb < 2 ^ width) :
    value width limbs < 2 ^ (width * limbs.length) := by
  induction limbs with
  | nil => simp
  | cons limb limbs ih =>
      have hHere := hLimbs limb (List.mem_cons_self ..)
      have hRest := ih fun other hOther =>
        hLimbs other (List.mem_cons_of_mem _ hOther)
      have hTop := Nat.mul_le_mul_left (2 ^ width) hRest
      rw [value_cons, List.length_cons, Nat.mul_succ,
        Nat.pow_add, Nat.mul_comm _ (2 ^ width)]
      rw [Nat.mul_succ] at hTop
      omega

/- Bit after bit, limb after limb. -/
theorem testBit_value
    {limbs : List Nat}
    (hWidth : 0 < width)
    (hLimbs : ∀ limb ∈ limbs, limb < 2 ^ width)
    (bit : Nat) :
    (value width limbs).testBit bit =
      (limbs.getD (bit / width) 0).testBit
        (bit % width) := by
  induction limbs generalizing bit with
  | nil => simp
  | cons limb limbs ih =>
      have hHere := hLimbs limb (List.mem_cons_self ..)
      have hRest := ih fun other hOther =>
        hLimbs other (List.mem_cons_of_mem _ hOther)
      rw [value_cons,
        Nat.testBit_two_pow_mul_add _ hHere]
      by_cases hLow : bit < width
      · rw [if_pos hLow, Nat.div_eq_of_lt hLow,
          Nat.mod_eq_of_lt hLow, List.getD_cons_zero]
      · have hAbove : width ≤ bit := Nat.le_of_not_lt hLow
        have hPlace : bit / width = (bit - width) / width + 1 :=
          Nat.div_eq_sub_div hWidth hAbove
        rw [if_neg hLow, hRest, hPlace, List.getD_cons_succ,
          Nat.mod_eq_sub_mod hAbove]

end Limbs

------------------------------------------------------------
-- Restoring Division
------------------------------------------------------------

namespace Restoring

/- A number as a quotient and a remainder by a divisor. -/
def Split
    (divisor value quotient remainder : Nat) : Prop :=
  value = quotient * divisor + remainder ∧
    remainder < divisor

variable {divisor value quotient remainder : Nat}

theorem Split.zero
    (hDivisor : 0 < divisor) :
    Split divisor 0 0 0 :=
  ⟨by simp, hDivisor⟩

theorem Split.quotient_eq
    (hSplit : Split divisor value quotient remainder) :
    value / divisor = quotient := by
  rw [hSplit.1, Nat.mul_comm,
    Nat.mul_add_div (Nat.zero_lt_of_lt hSplit.2),
    Nat.div_eq_of_lt hSplit.2, Nat.add_zero]

/- The bits above one place, and the next of them. -/
theorem shift_succ
    (number place : Nat) :
    number / 2 ^ place =
      2 * (number / 2 ^ (place + 1)) +
        number / 2 ^ place % 2 := by
  rw [Nat.pow_succ, ← Nat.div_div_eq_div_mul]
  omega

/- One more bit below, and the divisor taken off once. -/
theorem Split.next
    (hSplit : Split divisor value quotient remainder)
    {bit : Nat}
    (hBit : bit < 2) :
    Split divisor (2 * value + bit)
      (2 * quotient +
        if divisor ≤ 2 * remainder + bit then 1 else 0)
      (if divisor ≤ 2 * remainder + bit then
        2 * remainder + bit - divisor
      else
        2 * remainder + bit) := by
  rcases hSplit with ⟨rfl, hLess⟩
  split
  · refine ⟨?_, by omega⟩
    have hTaken : (2 * quotient + 1) * divisor =
        2 * (quotient * divisor) + divisor := by
      ring
    omega
  · refine ⟨?_, by omega⟩
    have hKept : (2 * quotient + 0) * divisor =
        2 * (quotient * divisor) := by
      ring
    omega

/-
  A division that subtracts the divisor in place: the
  remainder is below the divisor at its place, and the
  quotient has no bit below that place.
-/
structure Aligned
    (divisor value place quotient remainder : Nat) :
    Prop where
  split : value = quotient * divisor + remainder
  below : remainder < divisor * 2 ^ place
  places : 2 ^ place ∣ quotient

variable {place : Nat}

/- The divisor does not fit at the next place. -/
theorem Aligned.skip
    (hAligned :
      Aligned divisor value (place + 1) quotient remainder)
    (hLess : remainder < divisor * 2 ^ place) :
    Aligned divisor value place quotient remainder :=
  { split := hAligned.split
    below := hLess
    places := Nat.dvd_trans
      (Nat.pow_dvd_pow 2 (Nat.le_succ place))
      hAligned.places }

/- It fits once, and the quotient has one more bit. -/
theorem Aligned.take
    (hAligned :
      Aligned divisor value (place + 1) quotient remainder)
    (hFits : divisor * 2 ^ place ≤ remainder) :
    Aligned divisor value place (quotient + 2 ^ place)
      (remainder - divisor * 2 ^ place) := by
  have hBelow := hAligned.below
  rw [Nat.pow_succ, ← Nat.mul_assoc] at hBelow
  refine ⟨?_, by omega, ?_⟩
  · have hSplit := hAligned.split
    have hProduct : (quotient + 2 ^ place) * divisor =
        quotient * divisor + divisor * 2 ^ place := by
      ring
    omega
  · exact Nat.dvd_add
      (Nat.dvd_trans
        (Nat.pow_dvd_pow 2 (Nat.le_succ place))
        hAligned.places)
      (Nat.dvd_refl _)

theorem Aligned.quotient_eq
    (hAligned :
      Aligned divisor value 0 quotient remainder) :
    quotient = value / divisor := by
  have hBelow := hAligned.below
  rw [Nat.pow_zero, Nat.mul_one] at hBelow
  exact (Split.quotient_eq ⟨hAligned.split, hBelow⟩).symm

end Restoring
