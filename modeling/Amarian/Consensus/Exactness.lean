import Amarian.Consensus.Compact
import Amarian.Lib.Limbs
import Amarian.Util.Reader

/-
  Wide values compute on the numbers they stand for.

  The 64-bit product keeps its carries, one pass over the
  limbs multiplies the whole value, and the shifts multiply
  and divide by powers of two; what the limbs cannot hold is
  reported.

  Key definitions include:
    * `targetOf`

  Key theorems include:
    * `mulAdd64_exact`
    * `Wide.magnitude_multiplySmall`
    * `Wide.magnitude_shiftRight`
    * `Wide.magnitude_shiftLeft`
-/

------------------------------------------------------------
-- Numbers As Targets
------------------------------------------------------------

namespace Amarian

/- A number below `2^256` as a target. -/
def targetOf
    (value : Nat) : Target :=
  ⟨(littleEndian 32 value).reverse, by
    rw [List.length_reverse, length_littleEndian]⟩

theorem magnitude_littleEndian
    (width : Nat) :
    ∀ value : Nat,
      magnitude (littleEndian width value).reverse =
        value % 256 ^ width := by
  induction width with
  | zero =>
      intro value
      rw [Nat.pow_zero, Nat.mod_one]
      rfl
  | succ width ih =>
      intro value
      have hPlaces : 256 ^ (width + 1) = 256 * 256 ^ width :=
        Nat.pow_succ'
      rw [littleEndian, magnitude_reverse_cons, ih,
        UInt8.toNat_ofNat', hPlaces]
      exact Nat.mod_mul.symm

theorem magnitude_targetOf
    {value : Nat}
    (hValue : value < 2 ^ 256) :
    magnitude (targetOf value).bytes = value := by
  rw [targetOf, magnitude_littleEndian]
  exact Nat.mod_eq_of_lt hValue

/- A value that fits is written as the target it is. -/
theorem toTarget_eq
    {value : Wide}
    (hValue : value.magnitude < 2 ^ 256) :
    value.toTarget = targetOf value.magnitude := by
  have hTop : value.limb 4 = 0 := by
    rw [Wide.magnitude_eq] at hValue
    apply UInt64.toNat_inj.mp
    change (value.limb 4).toNat = 0
    omega
  apply magnitude_inj
  rw [Wide.magnitude_toTarget hTop, magnitude_targetOf hValue]

------------------------------------------------------------
-- The Product Of Two Words
------------------------------------------------------------

theorem low_half
    (word : UInt64) :
    (word &&& 0xFFFFFFFF).toNat = word.toNat % 2 ^ 32 := by
  rw [UInt64.toNat_and]
  exact Nat.and_two_pow_sub_one_eq_mod word.toNat 32

theorem high_half
    (word : UInt64) :
    (word >>> 32).toNat = word.toNat / 2 ^ 32 := by
  rw [UInt64.toNat_shiftRight, Nat.shiftRight_eq_div_pow]
  rfl

/- Halves multiply without leaving the word. -/
theorem half_mul
    {first second : UInt64}
    (hFirst : first.toNat < 2 ^ 32)
    (hSecond : second.toNat < 2 ^ 32) :
    (first * second).toNat = first.toNat * second.toNat ∧
      first.toNat * second.toNat ≤
        (2 ^ 32 - 1) * (2 ^ 32 - 1) := by
  have hProduct := Nat.mul_le_mul
    (Nat.le_sub_one_of_lt hFirst)
    (Nat.le_sub_one_of_lt hSecond)
  refine ⟨?_, hProduct⟩
  rw [UInt64.toNat_mul]
  exact Nat.mod_eq_of_lt (by omega)

/- A sum falls below a summand when it leaves the word. -/
theorem carry_eq
    (first second : UInt64) :
    (if first + second < first then (1 : UInt64)
        else 0).toNat =
      (first.toNat + second.toNat) / 2 ^ 64 := by
  have hFirst := first.toNat_lt
  have hSecond := second.toNat_lt
  have hSum : (first + second).toNat =
      (first.toNat + second.toNat) % 2 ^ 64 :=
    UInt64.toNat_add first second
  split
  · rename_i hLess
    rw [UInt64.lt_iff_toNat_lt] at hLess
    change 1 = _
    omega
  · rename_i hLess
    rw [UInt64.lt_iff_toNat_lt] at hLess
    change 0 = _
    omega

theorem shiftLeft_half
    (word : UInt64) :
    (word <<< 32).toNat =
      word.toNat % 2 ^ 32 * 2 ^ 32 := by
  rw [UInt64.toNat_shiftLeft,
    show UInt64.toNat 32 % 64 = 32 from rfl,
    Nat.shiftLeft_eq]
  omega

/- The two words are the product and the sum in full. -/
theorem mulAdd64_exact
    (a b add : UInt64) :
    (mulAdd64 a b add).1.toNat +
        (mulAdd64 a b add).2.toNat * 2 ^ 64 =
      a.toNat * b.toNat + add.toNat := by
  have hAdd := add.toNat_lt
  have hLowA := low_half a
  have hHighA := high_half a
  have hLowB := low_half b
  have hHighB := high_half b
  have hA := a.toNat_lt
  have hB := b.toNat_lt
  have hSplit :
      a.toNat * b.toNat =
        (a >>> 32).toNat * (b >>> 32).toNat * 2 ^ 64 +
          ((a &&& 0xFFFFFFFF).toNat * (b >>> 32).toNat +
              (a >>> 32).toNat *
                (b &&& 0xFFFFFFFF).toNat) *
            2 ^ 32 +
          (a &&& 0xFFFFFFFF).toNat *
            (b &&& 0xFFFFFFFF).toNat := by
    have hPartsA : a.toNat =
        (a >>> 32).toNat * 2 ^ 32 +
          (a &&& 0xFFFFFFFF).toNat := by
      omega
    have hPartsB : b.toNat =
        (b >>> 32).toNat * 2 ^ 32 +
          (b &&& 0xFFFFFFFF).toNat := by
      omega
    generalize (a >>> 32).toNat = aHi at hPartsA ⊢
    generalize (a &&& 0xFFFFFFFF).toNat = aLo at hPartsA ⊢
    generalize (b >>> 32).toNat = bHi at hPartsB ⊢
    generalize (b &&& 0xFFFFFFFF).toNat = bLo at hPartsB ⊢
    rw [hPartsA, hPartsB]
    ring
  unfold mulAdd64
  dsimp only
  generalize hLo : a &&& 0xFFFFFFFF = aLo at *
  generalize hHi : a >>> 32 = aHi at *
  generalize hLo' : b &&& 0xFFFFFFFF = bLo at *
  generalize hHi' : b >>> 32 = bHi at *
  rcases @half_mul aLo bLo (by omega) (by omega) with
    ⟨h00, hBound00⟩
  rcases @half_mul aLo bHi (by omega) (by omega) with
    ⟨h01, hBound01⟩
  rcases @half_mul aHi bLo (by omega) (by omega) with
    ⟨h10, hBound10⟩
  rcases @half_mul aHi bHi (by omega) (by omega) with
    ⟨h11, hBound11⟩
  rw [← h00, ← h01, ← h10, ← h11] at hSplit
  rw [← h00] at hBound00
  rw [← h01] at hBound01
  rw [← h10] at hBound10
  rw [← h11] at hBound11
  rw [hSplit]
  generalize aLo * bLo = p00 at *
  generalize aLo * bHi = p01 at *
  generalize aHi * bLo = p10 at *
  generalize aHi * bHi = p11 at *
  have hMidCarry := carry_eq p01 p10
  have hMid := UInt64.toNat_add p01 p10
  generalize p01 + p10 = mid at *
  generalize (if mid < p01 then (1 : UInt64) else 0) =
    midCarry at *
  have hShifted := shiftLeft_half mid
  have hAbove := high_half mid
  have hWeighted := shiftLeft_half midCarry
  generalize mid <<< 32 = shifted at *
  generalize mid >>> 32 = above at *
  generalize midCarry <<< 32 = weighted at *
  have hLowCarry := carry_eq p00 shifted
  rw [UInt64.add_comm p00 shifted] at hLowCarry
  have hLow := UInt64.toNat_add shifted p00
  generalize shifted + p00 = low at *
  generalize (if low < p00 then (1 : UInt64) else 0) =
    lowCarry at *
  have hAddCarry := carry_eq low add
  have hWithAdd := UInt64.toNat_add low add
  generalize low + add = withAdd at *
  generalize (if withAdd < low then (1 : UInt64) else 0) =
    addCarry at *
  rw [UInt64.toNat_add, UInt64.toNat_add, UInt64.toNat_add,
    UInt64.toNat_add]
  omega

/- The words `mulAdd64` computes on the way. -/
def lowHalf
    (word : UInt64) : UInt64 :=
  word &&& 0xFFFFFFFF

/- The upper thirty-two bits. -/
def highHalf
    (word : UInt64) : UInt64 :=
  word >>> 32

/- The two middle products, which may wrap. -/
def midWord
    (a b : UInt64) : UInt64 :=
  lowHalf a * highHalf b + highHalf a * lowHalf b

/- The low word of the product. -/
def lowWord
    (a b : UInt64) : UInt64 :=
  (midWord a b <<< 32) + lowHalf a * lowHalf b

/- Whether the middle sum wrapped. -/
def midCarry
    (a b : UInt64) : UInt64 :=
  if midWord a b < lowHalf a * highHalf b then 1 else 0

/- Whether the low sum wrapped. -/
def lowCarry
    (a b : UInt64) : UInt64 :=
  if lowWord a b < lowHalf a * lowHalf b then 1 else 0

/- Whether the word added made it wrap. -/
def addCarry
    (a b add : UInt64) : UInt64 :=
  if lowWord a b + add < lowWord a b then 1 else 0

theorem mulAdd64_eq
    (a b add : UInt64) :
    mulAdd64 a b add =
      (lowWord a b + add,
        highHalf a * highHalf b + (midCarry a b <<< 32) +
              (midWord a b >>> 32) +
            lowCarry a b +
          addCarry a b add) :=
  rfl

/- Every word is the product or the sum it stands for. -/
structure MulAddExact
    (a b add : UInt64) : Prop where
  lowLow :
    (lowHalf a * lowHalf b).toNat =
      (lowHalf a).toNat * (lowHalf b).toNat
  lowHigh :
    (lowHalf a * highHalf b).toNat =
      (lowHalf a).toNat * (highHalf b).toNat
  highLow :
    (highHalf a * lowHalf b).toNat =
      (highHalf a).toNat * (lowHalf b).toNat
  highHigh :
    (highHalf a * highHalf b).toNat =
      (highHalf a).toNat * (highHalf b).toNat
  mid :
    (midWord a b).toNat =
      (lowHalf a * highHalf b).toNat +
        (highHalf a * lowHalf b).toNat
  low :
    (lowWord a b).toNat =
      (midWord a b <<< 32).toNat +
        (lowHalf a * lowHalf b).toNat
  withAdd :
    (lowWord a b + add).toNat =
      (lowWord a b).toNat + add.toNat
  high :
    (mulAdd64 a b add).2.toNat =
      (highHalf a * highHalf b).toNat +
              (midCarry a b <<< 32).toNat +
            (midWord a b >>> 32).toNat +
          (lowCarry a b).toNat +
        (addCarry a b add).toNat
  value :
    (mulAdd64 a b add).1.toNat +
        (mulAdd64 a b add).2.toNat * 2 ^ 64 =
      a.toNat * b.toNat + add.toNat

/- A limb with its set bits together, at either end. -/
def Packed
    (limb : UInt64) : Prop :=
  limb.toNat % 2 ^ 32 = 0 ∨ limb.toNat < 2 ^ 47

/- The next carry is as small as the factor. -/
theorem mulAdd64_carry
    {a b add : UInt64}
    (hFactor : b.toNat < 2 ^ 17)
    (hAdd : add.toNat < 2 ^ 17) :
    (mulAdd64 a b add).2.toNat < 2 ^ 17 := by
  have hValue := mulAdd64_exact a b add
  have hProduct := Nat.mul_le_mul
    (Nat.le_sub_one_of_lt a.toNat_lt)
    (Nat.le_sub_one_of_lt hFactor)
  omega

/- Either half of a packed limb leaves room for the other. -/
theorem packed_room
    {limb factor : Nat}
    (hPacked : limb % 2 ^ 32 = 0 ∨ limb < 2 ^ 47)
    (hFactor : factor < 2 ^ 17) :
    limb / 2 ^ 32 * factor % 2 ^ 32 * 2 ^ 32 +
        limb % 2 ^ 32 * factor + 2 ^ 17 ≤
      2 ^ 64 := by
  rcases hPacked with hLow | hSmall
  · rw [hLow, Nat.zero_mul]
    omega
  · have hProduct := Nat.mul_le_mul
      (Nat.le_sub_one_of_lt hSmall)
      (Nat.le_sub_one_of_lt hFactor)
    have hSplit :
        limb * factor =
          limb / 2 ^ 32 * factor * 2 ^ 32 +
            limb % 2 ^ 32 * factor := by
      have hParts := Nat.div_add_mod limb (2 ^ 32)
      calc limb * factor
          = (2 ^ 32 * (limb / 2 ^ 32) + limb % 2 ^ 32) *
              factor := by
            rw [hParts]
        _ = limb / 2 ^ 32 * factor * 2 ^ 32 +
              limb % 2 ^ 32 * factor := by
            ring
    have hDropped :=
      Nat.mod_le (limb / 2 ^ 32 * factor) (2 ^ 32)
    omega

/- With a small factor no sum of a packed limb wraps. -/
theorem mulAdd64_steps
    {a b add : UInt64}
    (hPacked : Packed a)
    (hFactor : b.toNat < 2 ^ 17)
    (hAdd : add.toNat < 2 ^ 17) :
    MulAddExact a b add := by
  have hA := a.toNat_lt
  have hLowA : (lowHalf a).toNat = a.toNat % 2 ^ 32 :=
    low_half a
  have hHighA : (highHalf a).toNat = a.toNat / 2 ^ 32 :=
    high_half a
  have hLowB : (lowHalf b).toNat = b.toNat := by
    rw [lowHalf, low_half]
    exact Nat.mod_eq_of_lt (by omega)
  have hHighB : (highHalf b).toNat = 0 := by
    rw [highHalf, high_half]
    exact Nat.div_eq_of_lt (by omega)
  have h00 := (@half_mul (lowHalf a) (lowHalf b)
    (by omega) (by omega)).1
  have h01 := (@half_mul (lowHalf a) (highHalf b)
    (by omega) (by omega)).1
  have h10 := (@half_mul (highHalf a) (lowHalf b)
    (by omega) (by omega)).1
  have h11 := (@half_mul (highHalf a) (highHalf b)
    (by omega) (by omega)).1
  rw [hHighB, Nat.mul_zero] at h01 h11
  have hHighProduct := Nat.mul_le_mul
    (show (highHalf a).toNat ≤ 2 ^ 32 - 1 by omega)
    (show (lowHalf b).toNat ≤ 2 ^ 17 - 1 by omega)
  have hMid : (midWord a b).toNat =
      (lowHalf a * highHalf b).toNat +
        (highHalf a * lowHalf b).toNat := by
    rw [midWord, UInt64.toNat_add]
    exact Nat.mod_eq_of_lt (by omega)
  have hShifted := shiftLeft_half (midWord a b)
  have hAbove := high_half (midWord a b)
  have hRoom := packed_room hPacked hFactor
  rw [← hLowA, ← hHighA, ← hLowB, ← h00, ← h10]
    at hRoom
  have hLow : (lowWord a b).toNat =
      (midWord a b <<< 32).toNat +
        (lowHalf a * lowHalf b).toNat := by
    rw [lowWord, UInt64.toNat_add]
    exact Nat.mod_eq_of_lt (by omega)
  have hWithAdd : (lowWord a b + add).toNat =
      (lowWord a b).toNat + add.toNat := by
    rw [UInt64.toNat_add]
    exact Nat.mod_eq_of_lt (by omega)
  have hMidCarry : midCarry a b = 0 := by
    rw [midCarry, if_neg]
    rw [UInt64.lt_iff_toNat_lt]
    omega
  have hLowCarry : lowCarry a b = 0 := by
    rw [lowCarry, if_neg]
    rw [UInt64.lt_iff_toNat_lt]
    omega
  have hAddCarry : addCarry a b add = 0 := by
    rw [addCarry, if_neg]
    rw [UInt64.lt_iff_toNat_lt]
    omega
  refine ⟨(half_mul (by omega) (by omega)).1,
    (half_mul (by omega) (by omega)).1,
    (half_mul (by omega) (by omega)).1,
    (half_mul (by omega) (by omega)).1,
    hMid, hLow, hWithAdd, ?_, mulAdd64_exact a b add⟩
  rw [mulAdd64_eq, hMidCarry, hLowCarry, hAddCarry]
  simp only [UInt64.zero_shiftLeft, UInt64.add_zero,
    UInt64.toNat_zero, Nat.add_zero]
  rw [UInt64.toNat_add]
  exact Nat.mod_eq_of_lt (by omega)

------------------------------------------------------------
-- Limbs
------------------------------------------------------------

namespace Wide

theorem magnitude_value
    (value : Wide) :
    value.magnitude =
      Limbs.value 64 (value.limbs.map UInt64.toNat) := by
  rw [magnitude, Radix.value, List.map_reverse,
    List.reverse_reverse, Limbs.value]

theorem limbs_lt
    (limbs : List UInt64) :
    ∀ limb ∈ limbs.map UInt64.toNat, limb < 2 ^ 64 := by
  intro limb hLimb
  rcases List.mem_map.mp hLimb with ⟨word, -, rfl⟩
  exact word.toNat_lt

theorem magnitude_lt
    (value : Wide) :
    value.magnitude < 2 ^ 320 := by
  have hLess := Limbs.value_lt (limbs_lt value.limbs)
  rw [List.length_map, value.size_eq,
    show 64 * 5 = 320 from rfl] at hLess
  rw [magnitude_value]
  exact hLess

theorem limb_ofFn
    (limb : Nat → UInt64)
    (index : Nat) :
    (ofFn limb).limb index =
      if index < 5 then limb index else 0 := by
  rw [ofFn, Wide.limb, List.getD_eq_getElem?_getD,
    List.getElem?_map]
  split
  · rename_i hIndex
    rw [List.getElem?_range hIndex]
    rfl
  · rename_i hIndex
    rw [List.getElem?_eq_none (by simpa using hIndex)]
    rfl

theorem limb_of_le
    (value : Wide)
    {index : Nat}
    (hIndex : 5 ≤ index) :
    value.limb index = 0 := by
  rw [limb, List.getD_eq_default]
  rw [value.size_eq]
  exact hIndex

/- Every bit of a value is in its limb. -/
theorem testBit_magnitude
    (value : Wide)
    (bit : Nat) :
    value.magnitude.testBit bit =
      (value.limb (bit / 64)).toNat.testBit (bit % 64) := by
  rw [magnitude_value,
    Limbs.testBit_value (by decide) (limbs_lt value.limbs),
    limb, List.getD_eq_getElem?_getD,
    List.getD_eq_getElem?_getD, List.getElem?_map]
  cases value.limbs[bit / 64]? with
  | none => rfl
  | some word => rfl

theorem toNat_limb
    (value : Wide)
    (index : Nat) :
    (value.limb index).toNat =
      value.magnitude / 2 ^ (64 * index) % 2 ^ 64 := by
  apply Nat.eq_of_testBit_eq
  intro bit
  rw [Nat.testBit_mod_two_pow, Nat.testBit_div_two_pow]
  by_cases hBit : bit < 64
  · rw [testBit_magnitude, decide_eq_true hBit,
      Bool.true_and,
      show (bit + 64 * index) / 64 = index by omega,
      show (bit + 64 * index) % 64 = bit by omega]
  · rw [decide_eq_false hBit, Bool.false_and]
    apply Nat.testBit_lt_two_pow
    exact Nat.lt_of_lt_of_le (value.limb index).toNat_lt
      (Nat.pow_le_pow_right (by decide) (by omega))

theorem isZero_iff
    (value : Wide) :
    value.isZero = true ↔ value.magnitude = 0 := by
  have hTerms := value.magnitude_eq
  have hInside : value.limbs =
      [value.limb 0, value.limb 1, value.limb 2,
        value.limb 3, value.limb 4] := by
    rcases value with ⟨limbs, hSize⟩
    match limbs, hSize with
    | [a, b, d, e, f], _ => rfl
  have hZero : ∀ limb : UInt64, limb = 0 ↔ limb.toNat = 0 :=
    fun limb => UInt64.toNat_inj.symm
  unfold isZero
  rw [hInside]
  simp only [List.all_cons, List.all_nil, Bool.and_true,
    Bool.and_eq_true, beq_iff_eq, hZero]
  omega

------------------------------------------------------------
-- Multiplication
------------------------------------------------------------

/- One pass, with what goes in and what comes out of it. -/
theorem multiplyLimbs_exact
    (factor : UInt64)
    (limbs : List UInt64) :
    ∀ carry : UInt64,
      Limbs.value 64
            ((multiplyLimbs factor carry limbs).1.map
              UInt64.toNat) +
          (multiplyLimbs factor carry limbs).2.toNat *
            2 ^ (64 * limbs.length) =
        Limbs.value 64 (limbs.map UInt64.toNat) *
            factor.toNat +
          carry.toNat := by
  induction limbs with
  | nil => simp [multiplyLimbs]
  | cons limb limbs ih =>
      intro carry
      have hWord := mulAdd64_exact limb factor carry
      have hRest := ih (mulAdd64 limb factor carry).2
      rw [multiplyLimbs]
      generalize mulAdd64 limb factor carry = words
        at hWord hRest ⊢
      rcases words with ⟨lo, hi⟩
      dsimp only at hWord hRest ⊢
      generalize multiplyLimbs factor hi limbs = result
        at hRest ⊢
      rcases result with ⟨higher, out⟩
      dsimp only at hRest ⊢
      rw [List.map_cons, List.map_cons, Limbs.value_cons,
        Limbs.value_cons, List.length_cons, Nat.mul_succ,
        Nat.pow_add]
      calc 2 ^ 64 * Limbs.value 64 (higher.map UInt64.toNat) +
            lo.toNat +
            out.toNat * (2 ^ (64 * limbs.length) * 2 ^ 64)
          = 2 ^ 64 *
                (Limbs.value 64 (higher.map UInt64.toNat) +
                  out.toNat * 2 ^ (64 * limbs.length)) +
              lo.toNat := by
            ring
        _ = 2 ^ 64 *
                (Limbs.value 64 (limbs.map UInt64.toNat) *
                  factor.toNat) +
              (lo.toNat + hi.toNat * 2 ^ 64) := by
            rw [hRest]
            ring
        _ = (2 ^ 64 *
                  Limbs.value 64 (limbs.map UInt64.toNat) +
                limb.toNat) * factor.toNat +
              carry.toNat := by
            rw [hWord]
            ring

theorem multiplySmall_exact
    (value : Wide)
    (factor : UInt64) :
    (value.multiplySmall factor).1.magnitude +
        (multiplyLimbs factor 0 value.limbs).2.toNat *
          2 ^ 320 =
      value.magnitude * factor.toNat := by
  have hPass := multiplyLimbs_exact factor value.limbs 0
  rw [value.size_eq, ← magnitude_value,
    show UInt64.toNat 0 = 0 from rfl, Nat.add_zero,
    show 64 * 5 = 320 from rfl] at hPass
  rw [magnitude_value]
  exact hPass

/- Every call of one pass, with the carry it is given. -/
def PassExact
    (factor : UInt64) :
    UInt64 → List UInt64 → Prop
  | _, [] => True
  | carry, limb :: rest =>
      MulAddExact limb factor carry ∧
        PassExact factor (mulAdd64 limb factor carry).2 rest

theorem passExact
    {factor : UInt64}
    (hFactor : factor.toNat < 2 ^ 17)
    {limbs : List UInt64}
    (hPacked : ∀ limb ∈ limbs, Packed limb) :
    ∀ {carry : UInt64},
      carry.toNat < 2 ^ 17 →
        PassExact factor carry limbs := by
  induction limbs with
  | nil =>
      intro carry _
      trivial
  | cons limb limbs ih =>
      intro carry hCarry
      have hHere := hPacked limb (List.mem_cons_self ..)
      exact ⟨mulAdd64_steps hHere hFactor hCarry,
        ih (fun other hOther =>
            hPacked other (List.mem_cons_of_mem _ hOther))
          (mulAdd64_carry hFactor hCarry)⟩

/- The bytes of a mantissa, at any byte of a limb. -/
theorem packed_of_mantissa
    {mantissa places : Nat}
    (hMantissa : mantissa < 2 ^ 23)
    {limb : UInt64}
    {index : Nat}
    (hLimb :
      limb.toNat =
        mantissa * 2 ^ (8 * places) / 2 ^ (64 * index) %
          2 ^ 64) :
    Packed limb := by
  unfold Packed
  rw [hLimb]
  by_cases hAbove : 64 * index ≤ 8 * places
  · have hShift : 8 * places =
        8 * places - 64 * index + 64 * index := by
      omega
    rw [hShift, Nat.pow_add, ← Nat.mul_assoc,
      Nat.mul_div_cancel _ (Nat.two_pow_pos _)]
    by_cases hHigh : 32 ≤ 8 * places - 64 * index
    · left
      rw [Nat.mod_mod_of_dvd _ (by decide)]
      apply Nat.mod_eq_zero_of_dvd
      exact Nat.dvd_mul_left_of_dvd
        (Nat.pow_dvd_pow 2 hHigh) _
    · right
      refine Nat.lt_of_le_of_lt (Nat.mod_le ..) ?_
      have hPlace : 2 ^ (8 * places - 64 * index) ≤ 2 ^ 24 :=
        Nat.pow_le_pow_right (by decide) (by omega)
      have hProduct := Nat.mul_le_mul
        (Nat.le_sub_one_of_lt hMantissa) hPlace
      omega
  · right
    have hBelow : 2 ^ (8 * places) ≤ 2 ^ (64 * index) :=
      Nat.pow_le_pow_right (by decide) (by omega)
    have hProduct := Nat.mul_le_mul_left mantissa hBelow
    rw [Nat.mul_comm _ (2 ^ (64 * index))] at hProduct
    have hQuotient := Nat.div_le_of_le_mul hProduct
    refine Nat.lt_of_le_of_lt (Nat.mod_le ..) ?_
    omega

theorem places_of_digits
    {value digits size : Nat}
    (hValue : digits * 256 ^ size = value * 256 ^ 3)
    (hSize : 3 ≤ size) :
    value = digits * 2 ^ (8 * (size - 3)) := by
  have hPlaces : 256 ^ size =
      2 ^ (8 * (size - 3)) * 256 ^ 3 := by
    rw [Nat.pow_mul, show 2 ^ 8 = 256 from rfl,
      ← Nat.pow_add]
    congr 1
    omega
  rw [hPlaces, ← Nat.mul_assoc] at hValue
  exact (Nat.eq_of_mul_eq_mul_right (by decide) hValue).symm

/- The limbs of a target that decodes are packed. -/
theorem packed_fromTarget
    {bits : UInt32}
    {target : Target}
    (hTarget : compactToTarget bits = some target)
    (index : Nat) :
    Packed ((fromTarget target).limb index) := by
  have hPos := magnitude_pos hTarget
  have hFixed : compactFloor (Amarian.magnitude target.bytes) =
      Amarian.magnitude target.bytes := by
    rcases compactToTarget_targetToCompact hPos with
      ⟨decoded, hDecoded, hValue⟩
    rw [(compactToTarget_eq hTarget).2, hTarget] at hDecoded
    cases hDecoded
    exact hValue.symm
  have hDigits := compactDigits_lt hPos
  have hValue := compactDigits_mul
    (Amarian.magnitude target.bytes)
  rw [hFixed] at hValue
  have hLimb := toNat_limb (fromTarget target) index
  rw [magnitude_fromTarget] at hLimb
  by_cases hLong : 3 ≤ compactSize
      (Amarian.magnitude target.bytes)
  · have hPlaces := places_of_digits hValue hLong
    rw [hPlaces] at hLimb
    exact packed_of_mantissa hDigits hLimb
  · -- a short target lies in the lowest limb
    right
    have hSmall := lt_of_compactSize hPos
    have hShort :
        2 ^ (8 * compactSize
            (Amarian.magnitude target.bytes) - 1) ≤
          2 ^ 47 :=
      Nat.pow_le_pow_right (by decide) (by omega)
    have hQuotient := Nat.div_le_self
      (Amarian.magnitude target.bytes) (2 ^ (64 * index))
    rw [hLimb]
    refine Nat.lt_of_le_of_lt (Nat.mod_le ..) ?_
    omega

/- A product that fits is the product. -/
theorem magnitude_multiplySmall
    {value : Wide}
    {factor : UInt64}
    (hFits : value.magnitude * factor.toNat < 2 ^ 320) :
    (value.multiplySmall factor).1.magnitude =
        value.magnitude * factor.toNat ∧
      (value.multiplySmall factor).2 = false := by
  have hExact := multiplySmall_exact value factor
  have hCarry :
      (multiplyLimbs factor 0 value.limbs).2.toNat = 0 := by
    omega
  constructor
  · omega
  · change (_ != _) = false
    rw [bne_eq_false_iff_eq]
    exact UInt64.toNat_inj.mp hCarry

------------------------------------------------------------
-- Shifts
------------------------------------------------------------

theorem testBit_of_le
    (word : UInt64)
    {bit : Nat}
    (hBit : 64 ≤ bit) :
    word.toNat.testBit bit = false :=
  Nat.testBit_lt_two_pow
    (Nat.lt_of_lt_of_le word.toNat_lt
      (Nat.pow_le_pow_right (by decide) hBit))

theorem testBit_shiftRight
    (word bits : UInt64)
    (hBits : bits.toNat < 64)
    (bit : Nat) :
    (word >>> bits).toNat.testBit bit =
      word.toNat.testBit (bits.toNat + bit) := by
  rw [UInt64.toNat_shiftRight, Nat.mod_eq_of_lt hBits,
    Nat.testBit_shiftRight]

theorem testBit_shiftLeft
    (word bits : UInt64)
    (hBits : bits.toNat < 64)
    {bit : Nat}
    (hBit : bit < 64) :
    (word <<< bits).toNat.testBit bit =
      (decide (bits.toNat ≤ bit) &&
        word.toNat.testBit (bit - bits.toNat)) := by
  rw [UInt64.toNat_shiftLeft, Nat.mod_eq_of_lt hBits,
    Nat.testBit_mod_two_pow, Nat.testBit_shiftLeft,
    decide_eq_true hBit, Bool.true_and]

theorem two_pow_le
    {first second : Nat}
    (hLe : first ≤ second) :
    2 ^ first ≤ 2 ^ second :=
  Nat.pow_le_pow_right (by decide) hLe

theorem magnitude_zero :
    zero.magnitude = 0 :=
  (isZero_iff zero).mp rfl

/- A shift by whole limbs and some bits more. -/
theorem split_bits
    (bits : UInt64) :
    bits.toNat =
        64 * (bits / 64).toNat + (bits % 64).toNat ∧
      (bits % 64).toNat < 64 := by
  rw [UInt64.toNat_div, UInt64.toNat_mod,
    show UInt64.toNat 64 = 64 from rfl]
  omega

theorem complement_bits
    {bitShift : UInt64}
    (hShift : bitShift.toNat < 64)
    (hSome : bitShift ≠ 0) :
    0 < bitShift.toNat ∧
      (64 - bitShift).toNat = 64 - bitShift.toNat := by
  constructor
  · apply Nat.pos_of_ne_zero
    exact fun hZero => hSome (UInt64.toNat_inj.mp hZero)
  · rw [UInt64.toNat_sub_of_le]
    · rfl
    · rw [UInt64.le_iff_toNat_le]
      exact Nat.le_of_lt hShift

/- A limb after a shift: two neighbours, zeros past the end. -/
theorem shiftRight_word
    (value : Wide)
    (index limbShift : Nat)
    (bitShift : UInt64) :
    (if index < 5 then
        if index + limbShift ≥ 5 then
          0
        else if bitShift ≠ 0 ∧ index + limbShift + 1 < 5 then
          (value.limb (index + limbShift) >>> bitShift) |||
            (value.limb (index + limbShift + 1) <<<
              (64 - bitShift))
        else
          value.limb (index + limbShift) >>> bitShift
      else
        0) =
      (value.limb (index + limbShift) >>> bitShift) |||
        (if bitShift ≠ 0 then
          value.limb (index + limbShift + 1) <<<
            (64 - bitShift)
        else
          0) := by
  have hPast : ∀ place, 5 ≤ place → value.limb place = 0 :=
    fun place => value.limb_of_le
  by_cases hInside : index + limbShift < 5
  · rw [if_pos (by omega), if_neg (by omega)]
    by_cases hSome : bitShift ≠ 0
    · rw [if_pos hSome]
      by_cases hNext : index + limbShift + 1 < 5
      · rw [if_pos ⟨hSome, hNext⟩]
      · rw [if_neg fun h => hNext h.2,
          hPast (index + limbShift + 1) (by omega)]
        simp
    · rw [if_neg hSome, if_neg fun h => hSome h.1]
      simp
  · rw [hPast (index + limbShift) (by omega),
      hPast (index + limbShift + 1) (by omega)]
    split
    · rw [if_pos (by omega)]
      simp
    · simp

/- A shift to the right divides. -/
theorem magnitude_shiftRight
    (value : Wide)
    (bits : UInt64) :
    (value.shiftRight bits).magnitude =
      value.magnitude / 2 ^ bits.toNat := by
  rw [← Nat.shiftRight_eq_div_pow]
  unfold shiftRight
  split
  · rename_i hLong
    rw [ge_iff_le, UInt64.le_iff_toNat_le,
      show valueBits.toNat = 320 from rfl] at hLong
    rw [magnitude_zero, Nat.shiftRight_eq_div_pow,
      Nat.div_eq_of_lt]
    have hPower := two_pow_le hLong
    exact Nat.lt_of_lt_of_le value.magnitude_lt hPower
  apply Nat.eq_of_testBit_eq
  intro place
  rcases split_bits bits with ⟨hBits, hShift⟩
  rw [testBit_magnitude, limb_ofFn, Nat.testBit_shiftRight,
    testBit_magnitude, hBits]
  dsimp only
  generalize (bits / 64).toNat = limbShift
  generalize bits % 64 = bitShift at hShift ⊢
  rw [shiftRight_word]
  have hIndex := Nat.div_add_mod place 64
  have hBit := Nat.mod_lt place (show 64 > 0 by decide)
  generalize place / 64 = index at hIndex ⊢
  generalize place % 64 = bit at hIndex hBit ⊢
  subst hIndex
  rw [UInt64.toNat_or, Nat.testBit_or,
    testBit_shiftRight _ _ hShift]
  by_cases hNear : bitShift.toNat + bit < 64
  · -- the bit comes from the limb that lands here
    have hPlace :
        (64 * limbShift + bitShift.toNat +
              (64 * index + bit)) / 64 =
            index + limbShift ∧
          (64 * limbShift + bitShift.toNat +
              (64 * index + bit)) % 64 =
            bitShift.toNat + bit := by
      omega
    have hOther :
        (if bitShift ≠ 0 then
            value.limb (index + limbShift + 1) <<<
              (64 - bitShift)
          else
            0).toNat.testBit bit = false := by
      split
      · rename_i hSome
        rcases complement_bits hShift hSome with
          ⟨hPos, hRest⟩
        rw [testBit_shiftLeft _ _ (by omega) hBit,
          decide_eq_false (by omega), Bool.false_and]
      · exact Nat.zero_testBit bit
    rw [hPlace.1, hPlace.2, hOther, Bool.or_false]
  · -- the bit comes from the next limb
    have hPlace :
        (64 * limbShift + bitShift.toNat +
              (64 * index + bit)) / 64 =
            index + limbShift + 1 ∧
          (64 * limbShift + bitShift.toNat +
              (64 * index + bit)) % 64 =
            bit - (64 - bitShift.toNat) := by
      omega
    have hSome : bitShift ≠ 0 := by
      rintro rfl
      exact hNear (by simpa using hBit)
    rcases complement_bits hShift hSome with ⟨hPos, hRest⟩
    rw [hPlace.1, hPlace.2, if_pos hSome,
      testBit_of_le _ (by omega), Bool.false_or,
      testBit_shiftLeft _ _ (by omega) hBit, hRest,
      decide_eq_true (by omega), Bool.true_and]

/- A limb after a shift to the left. -/
theorem shiftLeft_word
    (value : Wide)
    {index limbShift : Nat}
    (hIndex : limbShift ≤ index)
    {bitShift : UInt64}
    (hShift : bitShift.toNat < 64)
    {bit : Nat}
    (hBit : bit < 64) :
    (if bitShift ≠ 0 ∧ index - limbShift ≥ 1 then
        (value.limb (index - limbShift) <<< bitShift) |||
          (value.limb (index - limbShift - 1) >>>
            (64 - bitShift))
      else
        value.limb (index - limbShift) <<<
          bitShift).toNat.testBit bit =
      (decide
          (64 * limbShift + bitShift.toNat ≤
            64 * index + bit) &&
        value.magnitude.testBit
          (64 * index + bit -
            (64 * limbShift + bitShift.toNat))) := by
  rw [testBit_magnitude]
  by_cases hNear : bitShift.toNat ≤ bit
  · have hPlace :
        (64 * index + bit -
              (64 * limbShift + bitShift.toNat)) / 64 =
            index - limbShift ∧
          (64 * index + bit -
              (64 * limbShift + bitShift.toNat)) % 64 =
            bit - bitShift.toNat := by
      omega
    rw [hPlace.1, hPlace.2, decide_eq_true (by omega),
      Bool.true_and]
    split
    · rename_i hBoth
      rcases complement_bits hShift hBoth.1 with
        ⟨hPos, hRest⟩
      rw [UInt64.toNat_or, Nat.testBit_or,
        testBit_shiftLeft _ _ hShift hBit,
        testBit_shiftRight _ _ (by omega),
        testBit_of_le (value.limb (index - limbShift - 1))
          (by omega), Bool.or_false,
        decide_eq_true hNear, Bool.true_and]
    · rw [testBit_shiftLeft _ _ hShift hBit,
        decide_eq_true hNear, Bool.true_and]
  · have hSome : bitShift ≠ 0 := by
      rintro rfl
      exact hNear (Nat.zero_le _)
    rcases complement_bits hShift hSome with ⟨hPos, hRest⟩
    by_cases hFirst : index = limbShift
    · rw [if_neg fun h => by omega,
        testBit_shiftLeft _ _ hShift hBit,
        decide_eq_false hNear, decide_eq_false (by omega)]
      rfl
    · have hPlace :
          (64 * index + bit -
                (64 * limbShift + bitShift.toNat)) / 64 =
              index - limbShift - 1 ∧
            (64 * index + bit -
                (64 * limbShift + bitShift.toNat)) % 64 =
              64 - bitShift.toNat + bit := by
        omega
      rw [if_pos ⟨hSome, by omega⟩, UInt64.toNat_or,
        Nat.testBit_or, testBit_shiftLeft _ _ hShift hBit,
        testBit_shiftRight _ _ (by omega), hRest,
        decide_eq_false hNear, Bool.false_and, Bool.false_or,
        hPlace.1, hPlace.2, decide_eq_true (by omega),
        Bool.true_and]

/- The bits that a shift to the left pushes out. -/
theorem overflow_iff
    (value : Wide)
    {limbShift : Nat}
    {bitShift : UInt64}
    (hShift : bitShift.toNat < 64) :
    ((List.range 5).any fun source =>
        if source + limbShift ≥ 5 then
          value.limb source != 0
        else if bitShift ≠ 0 ∧ source + limbShift = 4 then
          (value.limb source >>> (64 - bitShift)) != 0
        else
          false) = true ↔
      ∃ place,
        320 ≤ place + (64 * limbShift + bitShift.toNat) ∧
          value.magnitude.testBit place = true := by
  have hWord : ∀ word : UInt64,
      (word != 0) = true ↔
        ∃ bit, word.toNat.testBit bit = true := by
    intro word
    rw [bne_iff_ne]
    constructor
    · intro hSome
      apply Nat.exists_testBit_of_ne_zero
      exact fun hZero => hSome (UInt64.toNat_inj.mp hZero)
    · rintro ⟨bit, hBit⟩ rfl
      rw [show UInt64.toNat 0 = 0 from rfl,
        Nat.zero_testBit] at hBit
      cases hBit
  rw [List.any_eq_true]
  constructor
  · rintro ⟨source, hSource, hLost⟩
    rw [List.mem_range] at hSource
    split at hLost
    · rename_i hPast
      rcases (hWord _).mp hLost with ⟨bit, hBit⟩
      have hBelow : bit < 64 := by
        apply Nat.lt_of_not_le
        intro hLe
        rw [testBit_of_le _ hLe] at hBit
        cases hBit
      refine ⟨64 * source + bit, by omega, ?_⟩
      rw [testBit_magnitude,
        show (64 * source + bit) / 64 = source by omega,
        show (64 * source + bit) % 64 = bit by omega]
      exact hBit
    · split at hLost
      · rename_i hBoth
        rcases complement_bits hShift hBoth.1 with
          ⟨hPos, hRest⟩
        rcases (hWord _).mp hLost with ⟨bit, hBit⟩
        rw [testBit_shiftRight _ _ (by omega)] at hBit
        have hBelow : (64 - bitShift).toNat + bit < 64 := by
          apply Nat.lt_of_not_le
          intro hLe
          rw [testBit_of_le _ hLe] at hBit
          cases hBit
        refine ⟨64 * source + ((64 - bitShift).toNat + bit),
          by omega, ?_⟩
        rw [testBit_magnitude,
          show (64 * source + ((64 - bitShift).toNat + bit)) /
            64 = source by omega,
          show (64 * source + ((64 - bitShift).toNat + bit)) %
            64 = (64 - bitShift).toNat + bit by omega]
        exact hBit
      · cases hLost
  · rintro ⟨place, hPlace, hBit⟩
    rw [testBit_magnitude] at hBit
    have hInside : place / 64 < 5 := by
      apply Nat.lt_of_not_le
      intro hLe
      rw [limb_of_le _ hLe, show UInt64.toNat 0 = 0 from rfl,
        Nat.zero_testBit] at hBit
      cases hBit
    refine ⟨place / 64, List.mem_range.mpr hInside, ?_⟩
    split
    · exact (hWord _).mpr ⟨_, hBit⟩
    · have hSome : bitShift ≠ 0 := by
        rintro rfl
        rw [show UInt64.toNat 0 = 0 from rfl] at hPlace
        omega
      rcases complement_bits hShift hSome with
        ⟨hPos, hRest⟩
      rw [if_pos ⟨hSome, by omega⟩]
      refine (hWord _).mpr
        ⟨place % 64 - (64 - bitShift.toNat), ?_⟩
      rw [testBit_shiftRight _ _ (by omega), hRest,
        Nat.add_sub_cancel' (by omega)]
      exact hBit

/- A shift to the left says what it cannot hold. -/
theorem shiftLeft_overflow_iff
    (value : Wide)
    (bits : UInt64) :
    (value.shiftLeft bits).2 = true ↔
      2 ^ 320 ≤ value.magnitude * 2 ^ bits.toNat := by
  have hBelow := value.magnitude_lt
  unfold shiftLeft
  split
  · rename_i hNone
    subst hNone
    simp only [UInt64.toNat_zero, Nat.pow_zero, Nat.mul_one,
      Bool.false_eq_true, false_iff]
    exact Nat.not_le_of_lt hBelow
  split
  · rename_i hLong
    rw [ge_iff_le, UInt64.le_iff_toNat_le,
      show valueBits.toNat = 320 from rfl] at hLong
    have hPower := two_pow_le hLong
    change (!value.isZero) = true ↔ _
    rw [Bool.not_eq_true', ← Bool.not_eq_true,
      isZero_iff]
    constructor
    · intro hSome
      have hOne := Nat.mul_le_mul
        (Nat.one_le_iff_ne_zero.mpr hSome) hPower
      rwa [Nat.one_mul] at hOne
    · intro hLe hZero
      rw [hZero, Nat.zero_mul] at hLe
      exact absurd hLe
        (Nat.not_le_of_lt (Nat.zero_lt_of_lt hBelow))
  · rename_i hLong
    rw [ge_iff_le, UInt64.le_iff_toNat_le,
      show valueBits.toNat = 320 from rfl] at hLong
    rcases split_bits bits with ⟨hBits, hShift⟩
    refine (overflow_iff value hShift).trans ?_
    rw [← hBits]
    constructor
    · rintro ⟨place, hPlace, hBit⟩
      calc 2 ^ 320
          ≤ 2 ^ (place + bits.toNat) := two_pow_le hPlace
        _ = 2 ^ place * 2 ^ bits.toNat := Nat.pow_add ..
        _ ≤ value.magnitude * 2 ^ bits.toNat :=
            Nat.mul_le_mul_right _
              (Nat.ge_two_pow_of_testBit hBit)
    · intro hLe
      have hHigh :
          2 ^ (320 - bits.toNat) ≤ value.magnitude := by
        rw [← Nat.add_sub_cancel' (Nat.le_of_not_le hLong),
          Nat.pow_add, Nat.mul_comm] at hLe
        exact Nat.le_of_mul_le_mul_right hLe
          (Nat.two_pow_pos _)
      rcases Nat.exists_ge_and_testBit_of_ge_two_pow
        hHigh with ⟨place, hPlace, hBit⟩
      exact ⟨place, by omega, hBit⟩

/- A shift to the left multiplies. -/
theorem magnitude_shiftLeft
    {value : Wide}
    {bits : UInt64}
    (hFits :
      value.magnitude * 2 ^ bits.toNat < 2 ^ 320) :
    (value.shiftLeft bits).1.magnitude =
      value.magnitude * 2 ^ bits.toNat := by
  unfold shiftLeft
  split
  · rename_i hNone
    subst hNone
    simp
  split
  · rename_i hNone hLong
    rw [ge_iff_le, UInt64.le_iff_toNat_le,
      show valueBits.toNat = 320 from rfl] at hLong
    have hPower := two_pow_le hLong
    have hZero : value.magnitude = 0 := by
      apply Nat.eq_zero_of_not_pos
      intro hPos
      have hOne := Nat.mul_le_mul
        (Nat.one_le_iff_ne_zero.mpr (Nat.ne_of_gt hPos))
        hPower
      rw [Nat.one_mul] at hOne
      exact Nat.not_le_of_lt hFits hOne
    rw [hZero, Nat.zero_mul]
    exact magnitude_zero
  rcases split_bits bits with ⟨hBits, hShift⟩
  dsimp only
  apply Nat.eq_of_testBit_eq
  intro place
  rw [testBit_magnitude, limb_ofFn]
  split
  · rw [← Nat.shiftLeft_eq, Nat.testBit_shiftLeft, hBits]
    have hIndex := Nat.div_add_mod place 64
    have hBit := Nat.mod_lt place (show 64 > 0 by decide)
    split
    · rename_i hLe
      have hWord := shiftLeft_word value hLe hShift hBit
      rw [hIndex] at hWord
      exact hWord
    · rw [decide_eq_false (by omega), Bool.false_and]
      exact Nat.zero_testBit _
  · rename_i hPast
    have hZero : UInt64.toNat 0 = 0 := rfl
    rw [hZero, Nat.zero_testBit]
    refine (Nat.testBit_lt_two_pow ?_).symm
    refine Nat.lt_of_lt_of_le hFits ?_
    exact two_pow_le (show 320 ≤ place by omega)

end Wide

end Amarian
