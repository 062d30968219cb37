import Mathlib.Data.Nat.Bitwise
import Mathlib.Tactic.Common
import Mathlib.Tactic.Ring

/-
  Comparing fee rates exactly.

  A rate is a fee over a weight.  Two rates are compared by
  their cross products, which need 128 bits and are put
  together from 32-bit halves.

  Key definitions include:
    * `mul64`
    * `compareFeerate`

  Key theorems include:
    * `mul64_exact`
    * `compareFeerate_eq`
-/

------------------------------------------------------------
-- Products Of 128 Bits
------------------------------------------------------------

namespace Amarian

/- A product in two words. -/
structure Product where
  hi : UInt64
  lo : UInt64
deriving DecidableEq

/- The product in four parts, as the code sums them. -/
def mul64
    (a b : UInt64) : Product :=
  let low32 : UInt64 := 0xFFFFFFFF
  let aLo := a &&& low32
  let aHi := a >>> 32
  let bLo := b &&& low32
  let bHi := b >>> 32
  let ll := aLo * bLo
  let lh := aLo * bHi
  let hl := aHi * bLo
  let hh := aHi * bHi
  let mid := (ll >>> 32) + (lh &&& low32) + (hl &&& low32)
  { hi := hh + (lh >>> 32) + (hl >>> 32) + (mid >>> 32)
    lo := (ll &&& low32) ||| (mid <<< 32) }

/- The number that the words stand for. -/
def Product.toNat
    (product : Product) : Nat :=
  product.hi.toNat * 2 ^ 64 + product.lo.toNat

/- The high word decides first. -/
def compareProducts
    (a b : Product) : Ordering :=
  if a.hi ≠ b.hi then
    if a.hi < b.hi then .lt else .gt
  else if a.lo ≠ b.lo then
    if a.lo < b.lo then .lt else .gt
  else
    .eq

/- A fee that is not positive counts as none. -/
def scaledFee
    (fee : Int64) : UInt64 :=
  if 0 < fee then fee.toUInt64 else 0

/- Whether the first rate is lower, equal or higher. -/
def compareFeerate
    (feeA : Int64)
    (weightA : Nat)
    (feeB : Int64)
    (weightB : Nat) : Ordering :=
  if weightA = 0 ∨ weightB = 0 then
    if weightA = weightB then .eq
    else if weightA = 0 then .lt
    else .gt
  else
    compareProducts
      (mul64 (scaledFee feeA) (UInt64.ofNat weightB))
      (mul64 (scaledFee feeB) (UInt64.ofNat weightA))

------------------------------------------------------------
-- Exactness
------------------------------------------------------------

theorem low32_toNat
    (a : UInt64) :
    (a &&& 0xFFFFFFFF).toNat = a.toNat % 2 ^ 32 := by
  rw [UInt64.toNat_and]
  exact Nat.and_two_pow_sub_one_eq_mod a.toNat 32

theorem high32_toNat
    (a : UInt64) :
    (a >>> 32).toNat = a.toNat / 2 ^ 32 := by
  rw [UInt64.toNat_shiftRight]
  exact Nat.shiftRight_eq_div_pow a.toNat 32

/- A product of two halves does not wrap around. -/
theorem mul_halves
    {a b : UInt64}
    (hA : a.toNat < 2 ^ 32)
    (hB : b.toNat < 2 ^ 32) :
    (a * b).toNat = a.toNat * b.toNat ∧
      a.toNat * b.toNat ≤ (2 ^ 32 - 1) * (2 ^ 32 - 1) := by
  have hSmall :
      a.toNat * b.toNat ≤ (2 ^ 32 - 1) * (2 ^ 32 - 1) :=
    Nat.mul_le_mul (by omega) (by omega)
  refine ⟨?_, hSmall⟩
  rw [UInt64.toNat_mul, Nat.mod_eq_of_lt]
  omega

/- The low half and the shifted middle do not overlap. -/
theorem join32_toNat
    (low mid : UInt64) :
    ((low &&& (0xFFFFFFFF : UInt64)) |||
        (mid <<< (32 : UInt64))).toNat =
      mid.toNat % 2 ^ 32 * 2 ^ 32 + low.toNat % 2 ^ 32 := by
  have hShift :
      (mid <<< 32).toNat = mid.toNat % 2 ^ 32 * 2 ^ 32 := by
    rw [UInt64.toNat_shiftLeft]
    change mid.toNat <<< 32 % 2 ^ 64 = _
    rw [Nat.shiftLeft_eq]
    omega
  have hLess : low.toNat % 2 ^ 32 < 2 ^ 32 :=
    Nat.mod_lt _ (by decide)
  rw [UInt64.toNat_or, low32_toNat, hShift, Nat.or_comm,
    ← Nat.shiftLeft_eq, Nat.shiftLeft_add_eq_or_of_lt hLess]

theorem mul64_exact
    (a b : UInt64) :
    (mul64 a b).toNat = a.toNat * b.toNat := by
  have hA := a.toNat_lt
  have hB := b.toNat_lt
  have hALo := low32_toNat a
  have hAHi := high32_toNat a
  have hBLo := low32_toNat b
  have hBHi := high32_toNat b
  rcases mul_halves (a := a &&& 0xFFFFFFFF)
    (b := b &&& 0xFFFFFFFF) (by omega) (by omega) with
    ⟨hLL, hLLMax⟩
  rcases mul_halves (a := a &&& 0xFFFFFFFF)
    (b := b >>> 32) (by omega) (by omega) with
    ⟨hLH, hLHMax⟩
  rcases mul_halves (a := a >>> 32)
    (b := b &&& 0xFFFFFFFF) (by omega) (by omega) with
    ⟨hHL, hHLMax⟩
  rcases mul_halves (a := a >>> 32)
    (b := b >>> 32) (by omega) (by omega) with
    ⟨hHH, hHHMax⟩
  have hSplit :
      a.toNat * b.toNat =
        (a >>> 32).toNat * (b >>> 32).toNat * 2 ^ 64 +
          ((a &&& 0xFFFFFFFF).toNat * (b >>> 32).toNat +
            (a >>> 32).toNat *
              (b &&& 0xFFFFFFFF).toNat) * 2 ^ 32 +
          (a &&& 0xFFFFFFFF).toNat *
            (b &&& 0xFFFFFFFF).toNat := by
    have hAParts :
        a.toNat =
          (a >>> 32).toNat * 2 ^ 32 +
            (a &&& 0xFFFFFFFF).toNat := by omega
    have hBParts :
        b.toNat =
          (b >>> 32).toNat * 2 ^ 32 +
            (b &&& 0xFFFFFFFF).toNat := by omega
    rw [hAParts, hBParts]
    ring
  rw [← hLL] at hSplit hLLMax
  rw [← hLH] at hSplit hLHMax
  rw [← hHL] at hSplit hHLMax
  rw [← hHH] at hSplit hHHMax
  rw [hSplit, Product.toNat, mul64, join32_toNat]
  simp only [UInt64.toNat_add, low32_toNat, high32_toNat]
  clear hSplit hLL hLH hHL hHH hALo hAHi hBLo hBHi hA hB
  omega

------------------------------------------------------------
-- Rates As Fractions
------------------------------------------------------------

theorem compareProducts_eq
    (a b : Product) :
    compareProducts a b = compare a.toNat b.toNat := by
  have hA := a.lo.toNat_lt
  have hB := b.lo.toNat_lt
  unfold compareProducts Product.toNat
  simp only [UInt64.lt_iff_toNat_lt, ne_eq,
    ← UInt64.toNat_inj]
  rcases Nat.lt_trichotomy a.hi.toNat b.hi.toNat with
    hHi | hHi | hHi
  · rw [if_pos (by omega), if_pos hHi]
    exact (Nat.compare_eq_lt.mpr (by omega)).symm
  · rw [if_neg (by omega)]
    rcases Nat.lt_trichotomy a.lo.toNat b.lo.toNat with
      hLo | hLo | hLo
    · rw [if_pos (by omega), if_pos hLo]
      exact (Nat.compare_eq_lt.mpr (by omega)).symm
    · rw [if_neg (by omega)]
      exact (Nat.compare_eq_eq.mpr (by omega)).symm
    · rw [if_pos (by omega), if_neg (by omega)]
      exact (Nat.compare_eq_gt.mpr (by omega)).symm
  · rw [if_pos (by omega), if_neg (by omega)]
    exact (Nat.compare_eq_gt.mpr (by omega)).symm

theorem scaledFee_toNat
    {fee : Int64}
    (hFee : 0 ≤ fee.toInt) :
    ((scaledFee fee).toNat : Int) = fee.toInt := by
  have hValue :
      fee.toInt =
        if 2 * fee.toUInt64.toNat < 2 ^ 64 then
          (fee.toUInt64.toNat : Int)
        else
          (fee.toUInt64.toNat : Int) - (2 ^ 64 : Nat) :=
    BitVec.toInt_eq_toNat_cond fee.toBitVec
  have hBound := fee.toUInt64.toNat_lt
  unfold scaledFee
  split_ifs with hPositive
  · split at hValue <;> omega
  · rw [Int64.lt_iff_toInt_lt] at hPositive
    change ¬(0 < fee.toInt) at hPositive
    change (0 : Int) = fee.toInt
    omega

theorem scaledFee_max
    (fee : Int64) :
    ((scaledFee fee).toNat : Int) = max fee.toInt 0 := by
  by_cases hFee : 0 ≤ fee.toInt
  · rw [scaledFee_toNat hFee, max_eq_left hFee]
  · have hNot : ¬0 < fee := by
      rw [Int64.lt_iff_toInt_lt, Int64.toInt_zero]
      omega
    rw [scaledFee, if_neg hNot, max_eq_right (by omega)]
    rfl

theorem compare_natCast
    (x y : Nat) :
    compare (x : Int) (y : Int) = compare x y := by
  rcases Nat.lt_trichotomy x y with hLess | rfl | hLess
  · rw [compare_lt_iff_lt.mpr hLess,
      compare_lt_iff_lt.mpr (by omega)]
  · rw [compare_eq_iff_eq.mpr rfl, compare_eq_iff_eq.mpr rfl]
  · rw [compare_gt_iff_gt.mpr hLess,
      compare_gt_iff_gt.mpr (by omega)]

/- Rates of real packages are compared as fractions. -/
theorem compareFeerate_eq
    {feeA feeB : Int64}
    {weightA weightB : Nat}
    (hFeeA : 0 ≤ feeA.toInt)
    (hFeeB : 0 ≤ feeB.toInt)
    (hWeightA : 0 < weightA ∧ weightA < 2 ^ 64)
    (hWeightB : 0 < weightB ∧ weightB < 2 ^ 64) :
    compareFeerate feeA weightA feeB weightB =
      compare (feeA.toInt * weightB)
        (feeB.toInt * weightA) := by
  have hFull :
      ∀ weight < 2 ^ 64,
        (UInt64.ofNat weight).toNat = weight :=
    fun _ hWeight => UInt64.toNat_ofNat_of_lt' hWeight
  unfold compareFeerate
  rw [if_neg (by omega), compareProducts_eq, mul64_exact,
    mul64_exact, hFull weightA hWeightA.2,
    hFull weightB hWeightB.2, ← scaledFee_toNat hFeeA,
    ← scaledFee_toNat hFeeB, ← Int.natCast_mul,
    ← Int.natCast_mul, compare_natCast]

end Amarian
