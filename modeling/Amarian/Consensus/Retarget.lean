import Amarian.Consensus.Exactness

/-
  The retargeting rule over unbounded integers.

  The reference clamps its arguments as the code does and then
  computes without bounds: the exponent is a quotient of
  integers, the factor a polynomial, and the target a number
  shifted by any amount.  The code computes the same target
  in words and limbs.

  Key definitions include:
    * `Retarget.exponent`
    * `Retarget.factor`
    * `Retarget.target`

  Key theorems include:
    * `scaledQuotient_exact`
    * `fractionFactor_exact`
    * `asertNextBits_exact`
-/

------------------------------------------------------------
-- The Reference
------------------------------------------------------------

namespace Amarian

namespace Retarget

/- The nearest value in range. -/
def clamp
    (value low high : Int) : Int :=
  max low (min value high)

/- Seconds between a block and its place in the schedule. -/
def deviation
    (anchorTime heightDelta tipTime spacingSeconds : Int) :
    Int :=
  clamp tipTime (-2 ^ 61) (2 ^ 61) -
      clamp anchorTime (-2 ^ 61) (2 ^ 61) -
    clamp spacingSeconds 1 (2 ^ 31) *
      clamp heightDelta 1 (2 ^ 31)

/- Half-lives in units of `2^-16`, truncated toward zero. -/
def exponent
    (anchorTime heightDelta tipTime spacingSeconds
      halfLifeSeconds : Int) : Int :=
  (deviation anchorTime heightDelta tipTime spacingSeconds *
      2 ^ 16).tdiv
    (clamp halfLifeSeconds 1 (2 ^ 62))

/- The cubic approximation of `2^fraction`, times `2^16`. -/
def factor
    (fraction : Nat) : Nat :=
  2 ^ 16 +
    (195766423245049 * fraction + 971821376 * fraction ^ 2 +
        5127 * fraction ^ 3 + 2 ^ 47) / 2 ^ 48

/- `floor(value * 2^shift)`. -/
def scale
    (value : Nat)
    (shift : Int) : Nat :=
  if 0 ≤ shift then
    value * 2 ^ shift.toNat
  else
    value / 2 ^ (-shift).toNat

/- The target for an exponent, at least one and in bounds. -/
def target
    (anchor floor : Nat)
    (exponent : Int) : Nat :=
  max 1
    (min floor
      (scale
        (min anchor floor *
          factor (exponent % 2 ^ 16).toNat)
        (exponent / 2 ^ 16 - 16)))

end Retarget

------------------------------------------------------------
-- Signed Words
------------------------------------------------------------

/- A result that fits a signed word is the integer one. -/
theorem toInt_sub_exact
    {first second : Int64}
    (hLow : -2 ^ 63 ≤ first.toInt - second.toInt)
    (hHigh : first.toInt - second.toInt < 2 ^ 63) :
    (first - second).toInt = first.toInt - second.toInt := by
  rw [Int64.toInt_sub]
  apply Int.bmod_eq_of_le
  · exact hLow
  · exact hHigh

theorem toInt_mul_exact
    {first second : Int64}
    (hLow : -2 ^ 63 ≤ first.toInt * second.toInt)
    (hHigh : first.toInt * second.toInt < 2 ^ 63) :
    (first * second).toInt = first.toInt * second.toInt := by
  rw [Int64.toInt_mul]
  apply Int.bmod_eq_of_le
  · exact hLow
  · exact hHigh

theorem toInt_neg_exact
    {value : Int64}
    (hLow : -2 ^ 63 < value.toInt) :
    (-value).toInt = -value.toInt := by
  have hLess := value.toInt_lt
  rw [Int64.toInt_neg]
  apply Int.bmod_eq_of_le
  · exact (show -2 ^ 63 ≤ -value.toInt by omega)
  · exact (show -value.toInt < 2 ^ 63 by omega)

/- The same word read without a sign. -/
theorem toUInt64_eq
    (value : Int64) :
    (value.toUInt64.toNat : Int) = value.toInt % 2 ^ 64 := by
  have hBits := BitVec.toInt_eq_toNat_cond value.toBitVec
  have hWord := value.toUInt64.toNat_lt
  change value.toInt =
    if 2 * value.toUInt64.toNat < 2 ^ 64 then
      (value.toUInt64.toNat : Int)
    else
      (value.toUInt64.toNat : Int) - (2 ^ 64 : Nat) at hBits
  split at hBits
  · omega
  · omega

theorem toInt_toInt64
    {word : UInt64}
    (hWord : word.toNat < 2 ^ 63) :
    word.toInt64.toInt = word.toNat := by
  have hSame := toUInt64_eq word.toInt64
  have hLow := word.toInt64.le_toInt
  have hHigh := word.toInt64.toInt_lt
  rw [UInt64.toUInt64_toInt64] at hSame
  omega

theorem toInt_clampInt64
    (value : Int64)
    {low high : Int64}
    (hOrder : low.toInt ≤ high.toInt) :
    (clampInt64 value low high).toInt =
      Retarget.clamp value.toInt low.toInt high.toInt := by
  unfold clampInt64 Retarget.clamp
  simp only [gt_iff_lt, Int64.lt_iff_toInt_lt]
  split
  · omega
  · split
    · omega
    · omega

------------------------------------------------------------
-- The Division
------------------------------------------------------------

/- Bit `bit` of `high << 16`. -/
def numeratorBit
    (high : UInt64)
    (bit : Nat) : UInt64 :=
  if bit ≥ 16 then
    (high >>> UInt64.ofNat (bit - 16)) &&& 1
  else
    0

/- The remainder with one more bit of the numerator. -/
def shiftedRemainder
    (high : UInt64)
    (bit : Nat)
    (remainder : UInt64) : UInt64 :=
  (remainder <<< 1) ||| numeratorBit high bit

/- What is left after one bit of the division. -/
def nextRemainder
    (high divisor : UInt64)
    (bit : Nat)
    (remainder : UInt64) : UInt64 :=
  if decide (shiftedRemainder high bit remainder ≥ divisor)
  then
    shiftedRemainder high bit remainder - divisor
  else
    shiftedRemainder high bit remainder

/- The quotient after one bit more. -/
def nextQuotient
    (high divisor : UInt64)
    (bit : Nat)
    (remainder quotient : UInt64) : UInt64 :=
  (quotient <<< 1) |||
    (if decide
        (shiftedRemainder high bit remainder ≥ divisor)
    then 1 else 0)

theorem scaledQuotientLoop_succ
    (high divisor : UInt64)
    (bit : Nat)
    (remainder quotient : UInt64) :
    scaledQuotientLoop high divisor (bit + 1) remainder
        quotient =
      if nextQuotient high divisor bit remainder quotient ≥
          exponentSaturation then
        exponentSaturation
      else
        scaledQuotientLoop high divisor bit
          (nextRemainder high divisor bit remainder)
          (nextQuotient high divisor bit remainder
            quotient) :=
  rfl

/- The states of the loop, before the bit below each. -/
inductive Divides (high divisor : UInt64) :
    Nat → UInt64 → UInt64 → Prop
  | start : Divides high divisor 80 0 0
  | next
      {bit : Nat}
      {remainder quotient : UInt64}
      (hBefore :
        Divides high divisor (bit + 1) remainder quotient)
      (hRoom :
        nextQuotient high divisor bit remainder quotient <
          exponentSaturation) :
      Divides high divisor bit
        (nextRemainder high divisor bit remainder)
        (nextQuotient high divisor bit remainder quotient)

theorem numeratorBit_toNat
    (high : UInt64)
    {bit : Nat}
    (hBit : bit < 80) :
    (numeratorBit high bit).toNat =
      high.toNat * 2 ^ 16 / 2 ^ bit % 2 := by
  unfold numeratorBit
  split
  · rename_i hHigh
    have hSplit : bit = 16 + (bit - 16) := by omega
    rw [UInt64.toNat_and, UInt64.toNat_shiftRight,
      UInt64.toNat_ofNat',
      Nat.mod_eq_of_lt (show bit - 16 < 2 ^ 64 by omega),
      Nat.mod_eq_of_lt (show bit - 16 < 64 by omega),
      Nat.shiftRight_eq_div_pow]
    have hOne : UInt64.toNat 1 = 2 ^ 1 - 1 := rfl
    rw [hOne, Nat.and_two_pow_sub_one_eq_mod, Nat.pow_one]
    congr 1
    conv_rhs => rw [hSplit, Nat.pow_add, Nat.mul_comm]
    exact (Nat.mul_div_mul_left _ _ (by decide)).symm
  · rename_i hLow
    have hSplit : 2 ^ 16 = 2 ^ bit * (2 * 2 ^ (15 - bit)) := by
      rw [← Nat.pow_succ', ← Nat.pow_add]
      congr 1
      omega
    rw [hSplit, Nat.mul_left_comm,
      Nat.mul_div_cancel_left _ (Nat.two_pow_pos bit),
      Nat.mul_left_comm, Nat.mul_mod_right]
    rfl

/- A word shifted by one place, with a bit put below. -/
theorem append_bit
    {word bit : UInt64}
    (hWord : word.toNat < 2 ^ 63)
    (hBit : bit.toNat < 2) :
    ((word <<< 1) ||| bit).toNat =
      2 * word.toNat + bit.toNat := by
  rw [UInt64.toNat_or, UInt64.toNat_shiftLeft,
    show UInt64.toNat 1 % 64 = 1 from rfl, Nat.shiftLeft_eq,
    Nat.mod_eq_of_lt (by omega), Nat.mul_comm,
    ← Nat.two_pow_add_eq_or_of_lt (by omega)]

/- Every word of one step is the number it stands for. -/
structure StepExact
    (high divisor : UInt64)
    (bit : Nat)
    (remainder quotient : UInt64) : Prop where
  shifted :
    (shiftedRemainder high bit remainder).toNat =
      2 * remainder.toNat +
        high.toNat * 2 ^ 16 / 2 ^ bit % 2
  reduced :
    (nextRemainder high divisor bit remainder).toNat =
      if divisor.toNat ≤
          (shiftedRemainder high bit remainder).toNat then
        (shiftedRemainder high bit remainder).toNat -
          divisor.toNat
      else
        (shiftedRemainder high bit remainder).toNat
  extended :
    (nextQuotient high divisor bit remainder
        quotient).toNat =
      2 * quotient.toNat +
        if divisor.toNat ≤
            (shiftedRemainder high bit remainder).toNat then
          1
        else
          0

/-
  One step, of a quotient with room and a remainder below
  the divisor: nothing leaves its word.
-/
theorem division_step
    {high divisor remainder quotient : UInt64}
    {bit : Nat}
    (hBit : bit < 80)
    (hDivisor : divisor.toNat ≤ 2 ^ 62)
    (hQuotient : quotient.toNat < 2 ^ 32)
    (hRemainder : remainder.toNat < divisor.toNat) :
    StepExact high divisor bit remainder quotient := by
  have hNumerator := numeratorBit_toNat high hBit
  have hSmall : (numeratorBit high bit).toNat < 2 := by
    rw [hNumerator]
    exact Nat.mod_lt _ (by decide)
  have hShifted :
      (shiftedRemainder high bit remainder).toNat =
        2 * remainder.toNat +
          (numeratorBit high bit).toNat :=
    append_bit (by omega) hSmall
  rw [hNumerator] at hShifted
  refine ⟨hShifted, ?_, ?_⟩
  · unfold nextRemainder
    simp only [decide_eq_true_eq, ge_iff_le,
      UInt64.le_iff_toNat_le]
    split
    · rename_i hFits
      exact UInt64.toNat_sub_of_le _ _
        (UInt64.le_iff_toNat_le.mpr hFits)
    · rfl
  · unfold nextQuotient
    simp only [decide_eq_true_eq, ge_iff_le,
      UInt64.le_iff_toNat_le]
    split
    · exact append_bit (by omega) (by decide)
    · exact append_bit (by omega) (by decide)

/- The quotient and the remainder of what has been read. -/
theorem division_split
    {high divisor remainder quotient : UInt64}
    {bit : Nat}
    (hStep : StepExact high divisor bit remainder quotient)
    (hSplit :
      Restoring.Split divisor.toNat
        (high.toNat * 2 ^ 16 / 2 ^ (bit + 1))
        quotient.toNat remainder.toNat) :
    Restoring.Split divisor.toNat
      (high.toNat * 2 ^ 16 / 2 ^ bit)
      (nextQuotient high divisor bit remainder
        quotient).toNat
      (nextRemainder high divisor bit remainder).toNat := by
  have hNext := hSplit.next
    (Nat.mod_lt (high.toNat * 2 ^ 16 / 2 ^ bit)
      (show 2 > 0 by decide))
  rw [← Restoring.shift_succ, ← hStep.shifted] at hNext
  rw [hStep.extended, hStep.reduced]
  exact hNext

/- The quotient by a divisor grows with the places read. -/
theorem quotient_le
    (number divisor bit : Nat) :
    number / 2 ^ bit / divisor ≤ number / divisor :=
  Nat.div_le_div_right (Nat.div_le_self ..)

theorem scaledQuotientLoop_exact
    {high divisor : UInt64}
    (hDivisor : divisor.toNat ≤ 2 ^ 62) :
    ∀ {bit : Nat} {remainder quotient : UInt64},
      bit ≤ 80 →
        quotient.toNat < 2 ^ 32 →
          Restoring.Split divisor.toNat
              (high.toNat * 2 ^ 16 / 2 ^ bit)
              quotient.toNat remainder.toNat →
            (scaledQuotientLoop high divisor bit remainder
                quotient).toNat =
              min (high.toNat * 2 ^ 16 / divisor.toNat)
                (2 ^ 32) := by
  intro bit
  induction bit with
  | zero =>
      intro remainder quotient _ hQuotient hSplit
      have hWhole := hSplit.quotient_eq
      rw [Nat.pow_zero, Nat.div_one] at hWhole
      rw [scaledQuotientLoop, hWhole,
        Nat.min_eq_left (Nat.le_of_lt hQuotient)]
  | succ bit ih =>
      intro remainder quotient hBit hQuotient hSplit
      have hNext := division_split
        (division_step (Nat.lt_of_succ_le hBit) hDivisor
          hQuotient hSplit.2) hSplit
      rw [scaledQuotientLoop_succ]
      have hTop : exponentSaturation.toNat = 2 ^ 32 := rfl
      split
      · rename_i hFull
        rw [ge_iff_le, UInt64.le_iff_toNat_le, hTop] at hFull
        have hSoFar := hNext.quotient_eq
        have hGrows := quotient_le (high.toNat * 2 ^ 16)
          divisor.toNat bit
        rw [hTop, Nat.min_eq_right (by omega)]
      · rename_i hRoom
        rw [ge_iff_le, UInt64.le_iff_toNat_le, hTop] at hRoom
        exact ih (by omega) (by omega) hNext

theorem high_start
    (high : UInt64) :
    high.toNat * 2 ^ 16 / 2 ^ 80 = 0 := by
  have hHigh := high.toNat_lt
  omega

/- The truncated quotient, cut off at the saturation point. -/
theorem scaledQuotient_exact
    {high divisor : UInt64}
    (hPos : 0 < divisor.toNat)
    (hDivisor : divisor.toNat ≤ 2 ^ 62) :
    (scaledQuotient high divisor).toNat =
      min (high.toNat * 2 ^ 16 / divisor.toNat)
        (2 ^ 32) := by
  unfold scaledQuotient
  rw [if_neg]
  · apply scaledQuotientLoop_exact hDivisor (by omega)
    · decide
    · rw [high_start]
      exact Restoring.Split.zero hPos
  · rintro (rfl | hLarge)
    · exact Nat.lt_irrefl 0 hPos
    · rw [gt_iff_lt, UInt64.lt_iff_toNat_lt] at hLarge
      exact Nat.not_lt.mpr hDivisor hLarge

/- What holds of every state that the loop reaches. -/
theorem Divides.split
    {high divisor remainder quotient : UInt64}
    {bit : Nat}
    (hPos : 0 < divisor.toNat)
    (hDivisor : divisor.toNat ≤ 2 ^ 62)
    (hState :
      Divides high divisor bit remainder quotient) :
    bit ≤ 80 ∧
      quotient.toNat < 2 ^ 32 ∧
      Restoring.Split divisor.toNat
        (high.toNat * 2 ^ 16 / 2 ^ bit)
        quotient.toNat remainder.toNat := by
  induction hState with
  | start =>
      rw [high_start]
      exact ⟨by omega, by decide, Restoring.Split.zero hPos⟩
  | next hBefore hRoom ih =>
      rcases ih with ⟨hBit, hQuotient, hSplit⟩
      rw [UInt64.lt_iff_toNat_lt] at hRoom
      have hNext := division_split
        (division_step (Nat.lt_of_succ_le hBit) hDivisor
          hQuotient hSplit.2) hSplit
      exact ⟨by omega, hRoom, hNext⟩

------------------------------------------------------------
-- The Polynomial
------------------------------------------------------------

theorem word_mul
    {first second : UInt64}
    (hFits : first.toNat * second.toNat < 2 ^ 64) :
    (first * second).toNat =
      first.toNat * second.toNat := by
  rw [UInt64.toNat_mul]
  exact Nat.mod_eq_of_lt hFits

theorem word_add
    {first second : UInt64}
    (hFits : first.toNat + second.toNat < 2 ^ 64) :
    (first + second).toNat =
      first.toNat + second.toNat := by
  rw [UInt64.toNat_add]
  exact Nat.mod_eq_of_lt hFits

/- The terms of the polynomial, for sixteen bits at most. -/
theorem polynomial_le
    {fraction : Nat}
    (hFraction : fraction < 2 ^ 16) :
    195766423245049 * fraction +
          971821376 * fraction ^ 2 +
        5127 * fraction ^ 3 + 2 ^ 47 ≤
      18446563080438344768 := by
  have hOne : fraction ≤ 65535 := by omega
  have hTwo := Nat.pow_le_pow_left hOne 2
  have hThree := Nat.pow_le_pow_left hOne 3
  omega

/- Every value of the polynomial is the integer one. -/
structure PolynomialExact
    (fraction : UInt64) : Prop where
  linear :
    (195766423245049 * fraction).toNat =
      195766423245049 * fraction.toNat
  quadraticHalf :
    (971821376 * fraction).toNat =
      971821376 * fraction.toNat
  quadratic :
    (971821376 * fraction * fraction).toNat =
      971821376 * fraction.toNat ^ 2
  cubicThird :
    (5127 * fraction).toNat = 5127 * fraction.toNat
  cubicHalf :
    (5127 * fraction * fraction).toNat =
      5127 * fraction.toNat ^ 2
  cubic :
    (5127 * fraction * fraction * fraction).toNat =
      5127 * fraction.toNat ^ 3
  lower :
    (195766423245049 * fraction +
          971821376 * fraction * fraction).toNat =
      195766423245049 * fraction.toNat +
        971821376 * fraction.toNat ^ 2
  terms :
    (195766423245049 * fraction +
            971821376 * fraction * fraction +
          5127 * fraction * fraction * fraction).toNat =
      195766423245049 * fraction.toNat +
          971821376 * fraction.toNat ^ 2 +
        5127 * fraction.toNat ^ 3
  polynomial :
    (195766423245049 * fraction +
              971821376 * fraction * fraction +
            5127 * fraction * fraction * fraction +
          140737488355328).toNat =
      195766423245049 * fraction.toNat +
            971821376 * fraction.toNat ^ 2 +
          5127 * fraction.toNat ^ 3 +
        2 ^ 47
  factor :
    (fractionFactor fraction).toNat =
      Retarget.factor fraction.toNat

theorem factor_lt
    {fraction : Nat}
    (hFraction : fraction < 2 ^ 16) :
    Retarget.factor fraction < 2 ^ 17 := by
  have hPolynomial := polynomial_le hFraction
  unfold Retarget.factor
  omega

theorem fractionFactor_exact
    {fraction : UInt64}
    (hFraction : fraction.toNat < 2 ^ 16) :
    PolynomialExact fraction := by
  have hPolynomial := polynomial_le hFraction
  have hSquare := Nat.pow_le_pow_left
    (show fraction.toNat ≤ 65535 by omega) 2
  have hLinear :
      (195766423245049 * fraction).toNat =
        195766423245049 * fraction.toNat :=
    word_mul (by
      change 195766423245049 * fraction.toNat < _
      omega)
  have hQuadraticHalf :
      (971821376 * fraction).toNat =
        971821376 * fraction.toNat :=
    word_mul (by
      change 971821376 * fraction.toNat < _
      omega)
  have hQuadratic :
      (971821376 * fraction * fraction).toNat =
        971821376 * fraction.toNat ^ 2 := by
    rw [word_mul, hQuadraticHalf, Nat.mul_assoc, ← Nat.pow_two]
    rw [hQuadraticHalf, Nat.mul_assoc, ← Nat.pow_two]
    omega
  have hCubicThird :
      (5127 * fraction).toNat = 5127 * fraction.toNat :=
    word_mul (by
      change 5127 * fraction.toNat < _
      omega)
  have hCubicHalf :
      (5127 * fraction * fraction).toNat =
        5127 * fraction.toNat ^ 2 := by
    rw [word_mul, hCubicThird, Nat.mul_assoc, ← Nat.pow_two]
    rw [hCubicThird, Nat.mul_assoc, ← Nat.pow_two]
    omega
  have hCubic :
      (5127 * fraction * fraction * fraction).toNat =
        5127 * fraction.toNat ^ 3 := by
    have hCube :
        fraction.toNat ^ 2 * fraction.toNat =
          fraction.toNat ^ 3 :=
      (Nat.pow_succ ..).symm
    rw [word_mul, hCubicHalf, Nat.mul_assoc, hCube]
    rw [hCubicHalf, Nat.mul_assoc, hCube]
    omega
  have hLower :
      (195766423245049 * fraction +
            971821376 * fraction * fraction).toNat =
        195766423245049 * fraction.toNat +
          971821376 * fraction.toNat ^ 2 := by
    rw [word_add, hLinear, hQuadratic]
    rw [hLinear, hQuadratic]
    omega
  have hTerms :
      (195766423245049 * fraction +
              971821376 * fraction * fraction +
            5127 * fraction * fraction * fraction).toNat =
        195766423245049 * fraction.toNat +
            971821376 * fraction.toNat ^ 2 +
          5127 * fraction.toNat ^ 3 := by
    rw [word_add, hLower, hCubic]
    rw [hLower, hCubic]
    omega
  have hRounding : UInt64.toNat 140737488355328 = 2 ^ 47 :=
    rfl
  have hSum :
      (195766423245049 * fraction +
                971821376 * fraction * fraction +
              5127 * fraction * fraction * fraction +
            140737488355328).toNat =
        195766423245049 * fraction.toNat +
              971821376 * fraction.toNat ^ 2 +
            5127 * fraction.toNat ^ 3 +
          2 ^ 47 := by
    rw [word_add, hTerms, hRounding]
    rw [hTerms, hRounding]
    omega
  refine ⟨hLinear, hQuadraticHalf, hQuadratic, hCubicThird,
    hCubicHalf, hCubic, hLower, hTerms, hSum, ?_⟩
  have hScaled :
      ((195766423245049 * fraction +
                971821376 * fraction * fraction +
              5127 * fraction * fraction * fraction +
            140737488355328) >>> 48).toNat =
        (195766423245049 * fraction.toNat +
                971821376 * fraction.toNat ^ 2 +
              5127 * fraction.toNat ^ 3 +
            2 ^ 47) / 2 ^ 48 := by
    rw [UInt64.toNat_shiftRight, hSum,
      Nat.shiftRight_eq_div_pow]
    rfl
  unfold fractionFactor Retarget.factor
  dsimp only
  rw [word_add, hScaled]
  · rfl
  · rw [hScaled]
    change 65536 + _ < _
    omega

------------------------------------------------------------
-- The Exponent
------------------------------------------------------------

/- The arguments of the rule inside their ranges. -/
def clampTime
    (time : Int64) : Int64 :=
  clampInt64 time (-2305843009213693952) 2305843009213693952

/- Counts and spacings, as the code bounds them. -/
def clampCount
    (count : Int64) : Int64 :=
  clampInt64 count 1 2147483648

/- The half life, as the code bounds it. -/
def clampHalfLife
    (halfLife : Int64) : Int64 :=
  clampInt64 halfLife 1 4611686018427387904

/- How far the chain is behind its schedule. -/
def deviationWord
    (anchorTime heightDelta tipTime spacingSeconds : Int64) :
    Int64 :=
  clampTime tipTime - clampTime anchorTime -
    clampCount spacingSeconds * clampCount heightDelta

/- The same without its sign. -/
def deviationMagnitude
    (numerator : Int64) : UInt64 :=
  if numerator < 0 then
    0 - numerator.toUInt64
  else
    numerator.toUInt64

theorem asertExponent_eq
    (anchorTime heightDelta tipTime spacingSeconds
      halfLifeSeconds : Int64) :
    asertExponent anchorTime heightDelta tipTime
        spacingSeconds halfLifeSeconds =
      if deviationWord anchorTime heightDelta tipTime
          spacingSeconds < 0 then
        -(scaledQuotient
            (deviationMagnitude
              (deviationWord anchorTime heightDelta tipTime
                spacingSeconds))
            (clampHalfLife
              halfLifeSeconds).toUInt64).toInt64
      else
        (scaledQuotient
            (deviationMagnitude
              (deviationWord anchorTime heightDelta tipTime
                spacingSeconds))
            (clampHalfLife
              halfLifeSeconds).toUInt64).toInt64 :=
  rfl

theorem toInt_clampTime
    (time : Int64) :
    (clampTime time).toInt =
      Retarget.clamp time.toInt (-2 ^ 61) (2 ^ 61) :=
  toInt_clampInt64 time (by decide)

theorem toInt_clampCount
    (count : Int64) :
    (clampCount count).toInt =
      Retarget.clamp count.toInt 1 (2 ^ 31) :=
  toInt_clampInt64 count (by decide)

theorem toInt_clampHalfLife
    (halfLife : Int64) :
    (clampHalfLife halfLife).toInt =
      Retarget.clamp halfLife.toInt 1 (2 ^ 62) :=
  toInt_clampInt64 halfLife (by decide)

theorem clamp_mem
    {value low high : Int}
    (hOrder : low ≤ high) :
    low ≤ Retarget.clamp value low high ∧
      Retarget.clamp value low high ≤ high := by
  unfold Retarget.clamp
  omega

/- The signed values on the way to the exponent. -/
structure DeviationExact
    (anchorTime heightDelta tipTime spacingSeconds : Int64) :
    Prop where
  timeDelta :
    (clampTime tipTime - clampTime anchorTime).toInt =
      (clampTime tipTime).toInt - (clampTime anchorTime).toInt
  expected :
    (clampCount spacingSeconds *
        clampCount heightDelta).toInt =
      (clampCount spacingSeconds).toInt *
        (clampCount heightDelta).toInt
  numerator :
    (deviationWord anchorTime heightDelta tipTime
        spacingSeconds).toInt =
      Retarget.deviation anchorTime.toInt heightDelta.toInt
        tipTime.toInt spacingSeconds.toInt
  magnitude :
    (deviationMagnitude
        (deviationWord anchorTime heightDelta tipTime
          spacingSeconds)).toNat =
      (Retarget.deviation anchorTime.toInt heightDelta.toInt
        tipTime.toInt spacingSeconds.toInt).natAbs

theorem deviationMagnitude_toNat
    (numerator : Int64) :
    (deviationMagnitude numerator).toNat =
      numerator.toInt.natAbs := by
  have hWord := toUInt64_eq numerator
  have hLow := numerator.le_toInt
  have hHigh := numerator.toInt_lt
  unfold deviationMagnitude
  split
  · rename_i hNegative
    rw [Int64.lt_iff_toInt_lt, Int64.toInt_zero] at hNegative
    rw [UInt64.toNat_sub, show UInt64.toNat 0 = 0 from rfl]
    omega
  · rename_i hPositive
    rw [Int64.lt_iff_toInt_lt, Int64.toInt_zero] at hPositive
    omega

theorem deviationWord_exact
    (anchorTime heightDelta tipTime spacingSeconds : Int64) :
    DeviationExact anchorTime heightDelta tipTime
      spacingSeconds := by
  have hTip := toInt_clampTime tipTime
  have hAnchor := toInt_clampTime anchorTime
  have hSpacing := toInt_clampCount spacingSeconds
  have hHeight := toInt_clampCount heightDelta
  rcases @clamp_mem tipTime.toInt (-2 ^ 61) (2 ^ 61)
    (by decide) with ⟨hTipLow, hTipHigh⟩
  rcases @clamp_mem anchorTime.toInt (-2 ^ 61) (2 ^ 61)
    (by decide) with ⟨hAnchorLow, hAnchorHigh⟩
  rcases @clamp_mem spacingSeconds.toInt 1 (2 ^ 31)
    (by decide) with ⟨hSpacingLow, hSpacingHigh⟩
  rcases @clamp_mem heightDelta.toInt 1 (2 ^ 31)
    (by decide) with ⟨hHeightLow, hHeightHigh⟩
  have hProductLow :
      0 ≤ (clampCount spacingSeconds).toInt *
        (clampCount heightDelta).toInt :=
    Int.mul_nonneg (by omega) (by omega)
  have hProductHigh :
      (clampCount spacingSeconds).toInt *
          (clampCount heightDelta).toInt ≤
        2 ^ 31 * 2 ^ 31 :=
    Int.mul_le_mul (by omega) (by omega) (by omega)
      (by decide)
  have hTime :
      (clampTime tipTime - clampTime anchorTime).toInt =
        (clampTime tipTime).toInt -
          (clampTime anchorTime).toInt :=
    toInt_sub_exact (by omega) (by omega)
  have hExpected :
      (clampCount spacingSeconds *
          clampCount heightDelta).toInt =
        (clampCount spacingSeconds).toInt *
          (clampCount heightDelta).toInt :=
    toInt_mul_exact (by omega) (by omega)
  have hNumerator :
      (deviationWord anchorTime heightDelta tipTime
          spacingSeconds).toInt =
        Retarget.deviation anchorTime.toInt heightDelta.toInt
          tipTime.toInt spacingSeconds.toInt := by
    unfold deviationWord Retarget.deviation
    rw [toInt_sub_exact, hTime, hExpected, hTip, hAnchor,
      hSpacing, hHeight]
    · rw [hTime, hExpected]
      omega
    · rw [hTime, hExpected]
      omega
  refine ⟨hTime, hExpected, hNumerator, ?_⟩
  rw [deviationMagnitude_toNat, hNumerator]

/- A truncated quotient, by the sign of what is divided. -/
theorem tdiv_eq
    (number : Int)
    {divisor : Nat} :
    (number * 2 ^ 16).tdiv divisor =
      if number < 0 then
        -((number.natAbs * 2 ^ 16 / divisor : Nat) : Int)
      else
        ((number.natAbs * 2 ^ 16 / divisor : Nat) : Int) := by
  split
  · rename_i hNegative
    have hNumber : number = -(number.natAbs : Int) := by
      omega
    have hScaled : number * 2 ^ 16 =
        -((number.natAbs * 2 ^ 16 : Nat) : Int) := by
      omega
    rw [hScaled, Int.neg_tdiv]
    rfl
  · rename_i hPositive
    have hScaled : number * 2 ^ 16 =
        ((number.natAbs * 2 ^ 16 : Nat) : Int) := by
      omega
    rw [hScaled]
    rfl

/- The exponent of the code is the one of the reference. -/
theorem asertExponent_exact
    (anchorTime heightDelta tipTime spacingSeconds
      halfLifeSeconds : Int64) :
    (asertExponent anchorTime heightDelta tipTime
        spacingSeconds halfLifeSeconds).toInt =
      Retarget.clamp
        (Retarget.exponent anchorTime.toInt heightDelta.toInt
          tipTime.toInt spacingSeconds.toInt
          halfLifeSeconds.toInt)
        (-2 ^ 32) (2 ^ 32) := by
  have hExact := deviationWord_exact anchorTime heightDelta
    tipTime spacingSeconds
  have hHalfLife := toInt_clampHalfLife halfLifeSeconds
  rcases @clamp_mem halfLifeSeconds.toInt 1 (2 ^ 62)
    (by decide) with ⟨hLow, hHigh⟩
  have hDivisor := toUInt64_eq (clampHalfLife halfLifeSeconds)
  rw [hHalfLife] at hDivisor
  have hSame :
      Retarget.clamp halfLifeSeconds.toInt 1 (2 ^ 62) =
        ((clampHalfLife
          halfLifeSeconds).toUInt64.toNat : Int) := by
    omega
  have hQuotient := @scaledQuotient_exact
    (deviationMagnitude
      (deviationWord anchorTime heightDelta tipTime
        spacingSeconds))
    (clampHalfLife halfLifeSeconds).toUInt64
    (by omega) (by omega)
  rw [hExact.magnitude] at hQuotient
  unfold Retarget.exponent
  rw [asertExponent_eq, hSame, tdiv_eq]
  simp only [Int64.lt_iff_toInt_lt, hExact.numerator]
  generalize scaledQuotient _ _ = scaled at hQuotient ⊢
  have hScaled : scaled.toInt64.toInt = scaled.toNat :=
    toInt_toInt64 (by omega)
  generalize Retarget.deviation _ _ _ _ = number
    at hQuotient ⊢
  generalize number.natAbs * 2 ^ 16 /
    (clampHalfLife halfLifeSeconds).toUInt64.toNat = quotient
    at hQuotient ⊢
  unfold Retarget.clamp
  change (if number < 0 then _ else _ : Int64).toInt = _
  split
  · rw [toInt_neg_exact (by omega), hScaled]
    omega
  · rw [hScaled]
    omega

------------------------------------------------------------
-- Saturation
------------------------------------------------------------

namespace Retarget

theorem factor_pos
    (fraction : Nat) :
    0 < factor fraction :=
  Nat.lt_of_lt_of_le (by decide) (Nat.le_add_right ..)

/- Far above the schedule the floor is the answer. -/
theorem le_scale
    {value : Nat}
    (hValue : 0 < value)
    {shift : Int}
    (hShift : 256 ≤ shift) :
    2 ^ 256 ≤ scale value shift := by
  unfold scale
  rw [if_pos (by omega)]
  calc 2 ^ 256
      ≤ 2 ^ shift.toNat := Wide.two_pow_le (by omega)
    _ ≤ value * 2 ^ shift.toNat :=
        Nat.le_mul_of_pos_left _ hValue

/- Far below it the target is one. -/
theorem scale_eq_zero
    {value : Nat}
    (hValue : value < 2 ^ 320)
    {shift : Int}
    (hShift : shift ≤ -320) :
    scale value shift = 0 := by
  unfold scale
  rw [if_neg (by omega)]
  apply Nat.div_eq_of_lt
  exact Nat.lt_of_lt_of_le hValue
    (Wide.two_pow_le (by omega))

theorem product_lt
    {anchor floor : Nat}
    (hFloor : floor < 2 ^ 256)
    (exponent : Int) :
    min anchor floor * factor (exponent % 2 ^ 16).toNat <
      2 ^ 320 := by
  have hFactor := factor_lt
    (show (exponent % 2 ^ 16).toNat < 2 ^ 16 by omega)
  have hMost :
      min anchor floor * factor (exponent % 2 ^ 16).toNat ≤
        floor * 2 ^ 17 :=
    Nat.mul_le_mul (Nat.min_le_right ..)
      (Nat.le_of_lt hFactor)
  have hBelow : floor * 2 ^ 17 < 2 ^ 256 * 2 ^ 17 :=
    Nat.mul_lt_mul_of_pos_right hFloor (Nat.two_pow_pos 17)
  have hRoom : 2 ^ 256 * 2 ^ 17 ≤ 2 ^ 320 := by
    rw [← Nat.pow_add]
    apply Wide.two_pow_le
    decide
  exact Nat.lt_of_le_of_lt hMost
    (Nat.lt_of_lt_of_le hBelow hRoom)

/- Cutting the exponent off is never seen in the target. -/
theorem target_clamp
    {anchor floor : Nat}
    (hAnchor : 0 < anchor)
    (hPos : 0 < floor)
    (hFloor : floor < 2 ^ 256)
    (exponent : Int) :
    target anchor floor
        (clamp exponent (-2 ^ 32) (2 ^ 32)) =
      target anchor floor exponent := by
  have hStart : 0 < min anchor floor :=
    Nat.lt_min.mpr ⟨hAnchor, hPos⟩
  have hValue : ∀ other : Int,
      0 < min anchor floor *
        factor (other % 2 ^ 16).toNat :=
    fun other => Nat.mul_pos hStart (factor_pos _)
  rcases Int.lt_or_le (2 ^ 32) exponent with
    hHigh | hBelow
  · have hCut : clamp exponent (-2 ^ 32) (2 ^ 32) =
        2 ^ 32 := by
      unfold clamp
      omega
    have hFirst := @le_scale _ (hValue (2 ^ 32))
      (2 ^ 32 / 2 ^ 16 - 16) (by decide)
    have hSecond := @le_scale _ (hValue exponent)
      (exponent / 2 ^ 16 - 16) (by omega)
    unfold target
    rw [hCut, Nat.min_eq_left (by omega),
      Nat.min_eq_left (by omega)]
  · rcases Int.lt_or_le exponent (-2 ^ 32) with
      hLow | hAbove
    · have hCut : clamp exponent (-2 ^ 32) (2 ^ 32) =
          -2 ^ 32 := by
        unfold clamp
        omega
      unfold target
      rw [hCut,
        scale_eq_zero (product_lt hFloor _) (by decide),
        scale_eq_zero (product_lt hFloor _) (by omega)]
    · have hCut : clamp exponent (-2 ^ 32) (2 ^ 32) =
          exponent := by
        unfold clamp
        omega
      rw [hCut]

end Retarget

------------------------------------------------------------
-- The Target
------------------------------------------------------------

theorem clampTarget_exact
    {floor : Target}
    (hFloor : 0 < magnitude floor.bytes)
    (value : Wide) :
    clampTarget value (.fromTarget floor) =
      targetToCompact
        (targetOf
          (max 1
            (min (magnitude floor.bytes)
              value.magnitude))) := by
  have hLimit := Wide.magnitude_fromTarget floor
  have hBelow := magnitude_lt floor.bytes
  rw [floor.size_eq] at hBelow
  unfold clampTarget
  split
  · rename_i hZero
    rw [Wide.isZero_iff] at hZero
    rw [hZero, Nat.min_zero]
    exact congrArg targetToCompact rfl
  · rename_i hSome
    rw [Wide.isZero_iff] at hSome
    split
    · rename_i hExceeds
      rw [Wide.exceeds_iff, hLimit] at hExceeds
      rw [toTarget_eq (by rw [hLimit]; exact hBelow), hLimit,
        Nat.min_eq_left (Nat.le_of_lt hExceeds),
        Nat.max_eq_right hFloor]
    · rename_i hExceeds
      rw [Wide.exceeds_iff, hLimit, Nat.not_lt] at hExceeds
      rw [toTarget_eq (Nat.lt_of_le_of_lt hExceeds hBelow),
        Nat.min_eq_right hExceeds,
        Nat.max_eq_right (Nat.pos_of_ne_zero hSome)]

theorem magnitude_start
    (anchor floor : Target) :
    (if (Wide.fromTarget anchor).exceeds
            (.fromTarget floor) = true then
        Wide.fromTarget floor
      else
        Wide.fromTarget anchor).magnitude =
      min (magnitude anchor.bytes)
        (magnitude floor.bytes) := by
  split
  · rename_i hExceeds
    rw [Wide.exceeds_iff, Wide.magnitude_fromTarget,
      Wide.magnitude_fromTarget] at hExceeds
    rw [Wide.magnitude_fromTarget,
      Nat.min_eq_right (Nat.le_of_lt hExceeds)]
  · rename_i hExceeds
    rw [Wide.exceeds_iff, Wide.magnitude_fromTarget,
      Wide.magnitude_fromTarget, Nat.not_lt] at hExceeds
    rw [Wide.magnitude_fromTarget,
      Nat.min_eq_left hExceeds]

/- The two parts of an exponent. -/
theorem exponent_parts
    {exponent : Int64}
    (hLow : -2 ^ 32 ≤ exponent.toInt)
    (hHigh : exponent.toInt ≤ 2 ^ 32) :
    (exponent >>> 16).toInt = exponent.toInt / 2 ^ 16 ∧
      ((exponent >>> 16) - 16).toInt =
        exponent.toInt / 2 ^ 16 - 16 ∧
      (exponent.toUInt64 &&& 65535).toNat =
        (exponent.toInt % 2 ^ 16).toNat := by
  have hShift : (exponent >>> 16).toInt =
      exponent.toInt / 2 ^ 16 := by
    change (BitVec.sshiftRight' exponent.toBitVec
      (BitVec.smod (16 : Int64).toBitVec 64)).toInt = _
    rw [BitVec.toInt_sshiftRight', Int.shiftRight_eq_div_pow]
    rfl
  have hSixteen : (16 : Int64).toInt = 16 := by decide
  have hWord := toUInt64_eq exponent
  refine ⟨hShift, ?_, ?_⟩
  · rw [toInt_sub_exact, hShift, hSixteen]
    · rw [hShift, hSixteen]
      omega
    · rw [hShift, hSixteen]
      omega
  · rw [UInt64.toNat_and]
    have hMask := Nat.and_two_pow_sub_one_eq_mod
      exponent.toUInt64.toNat 16
    change _ &&& 2 ^ 16 - 1 = _
    rw [hMask]
    omega

/- What follows the multiplication, for an exponent in bounds. -/
theorem shifted_exact
    {floor : Target}
    (hFloor : 0 < magnitude floor.bytes)
    {product : Wide}
    {shift : Int64}
    (hLow : -2 ^ 63 < shift.toInt) :
    (if shift > 0 then
        if (product.shiftLeft shift.toUInt64).2 || false then
          targetToCompact (Wide.fromTarget floor).toTarget
        else
          clampTarget (product.shiftLeft shift.toUInt64).1
            (.fromTarget floor)
      else if shift < 0 then
        clampTarget
          (product.shiftRight (-shift).toUInt64)
          (.fromTarget floor)
      else
        clampTarget product (.fromTarget floor)) =
      targetToCompact
        (targetOf
          (max 1
            (min (magnitude floor.bytes)
              (Retarget.scale product.magnitude
                shift.toInt)))) := by
  have hLimit := Wide.magnitude_fromTarget floor
  have hBelow := magnitude_lt floor.bytes
  rw [floor.size_eq] at hBelow
  have hWord := toUInt64_eq shift
  have hHigh := shift.toInt_lt
  simp only [gt_iff_lt, Int64.lt_iff_toInt_lt,
    Int64.toInt_zero, Bool.or_false]
  unfold Retarget.scale
  by_cases hLeft : 0 < shift.toInt
  · have hBits : shift.toUInt64.toNat = shift.toInt.toNat := by
      omega
    rw [if_pos hLeft, if_pos (Int.le_of_lt hLeft), ← hBits]
    by_cases hLost :
        (product.shiftLeft shift.toUInt64).2 = true
    · rw [if_pos hLost]
      rw [Wide.shiftLeft_overflow_iff] at hLost
      have hMost : magnitude floor.bytes ≤
          product.magnitude * 2 ^ shift.toUInt64.toNat :=
        Nat.le_trans (Nat.le_of_lt hBelow)
          (Nat.le_trans
            (Wide.two_pow_le (show 256 ≤ 320 by decide))
            hLost)
      rw [toTarget_eq (by rw [hLimit]; exact hBelow), hLimit,
        Nat.min_eq_left hMost, Nat.max_eq_right hFloor]
    · rw [if_neg hLost, clampTarget_exact hFloor]
      rw [Wide.shiftLeft_overflow_iff, Nat.not_le] at hLost
      rw [Wide.magnitude_shiftLeft hLost]
  · rw [if_neg hLeft]
    by_cases hRight : shift.toInt < 0
    · have hNeg := toInt_neg_exact hLow
      have hBits : (-shift).toUInt64.toNat =
          (-shift.toInt).toNat := by
        have hSame := toUInt64_eq (-shift)
        omega
      rw [if_pos hRight, if_neg (by omega),
        clampTarget_exact hFloor, Wide.magnitude_shiftRight,
        hBits]
    · have hZero : shift.toInt = 0 := by omega
      rw [if_neg hRight, if_pos (by omega),
        clampTarget_exact hFloor, hZero]
      simp

/- The code computes the target of the reference. -/
theorem asertNextBits_eq
    {anchorBits powLimitBits : UInt32}
    {anchor floor : Target}
    (hAnchor : compactToTarget anchorBits = some anchor)
    (hFloor : compactToTarget powLimitBits = some floor)
    (anchorTime : Int64)
    {heightDelta : Int64}
    (hHeight : 1 ≤ heightDelta)
    (tipTime spacingSeconds halfLifeSeconds : Int64) :
    asertNextBits anchorBits anchorTime heightDelta tipTime
        spacingSeconds halfLifeSeconds powLimitBits =
      targetToCompact
        (targetOf
          (Retarget.target (magnitude anchor.bytes)
            (magnitude floor.bytes)
            (Retarget.exponent anchorTime.toInt
              heightDelta.toInt tipTime.toInt
              spacingSeconds.toInt
              halfLifeSeconds.toInt))) := by
  have hAnchorPos := magnitude_pos hAnchor
  have hFloorPos := magnitude_pos hFloor
  have hBelow := magnitude_lt floor.bytes
  rw [floor.size_eq] at hBelow
  have hExponent := asertExponent_exact anchorTime heightDelta
    tipTime spacingSeconds halfLifeSeconds
  rw [← Retarget.target_clamp hAnchorPos hFloorPos hBelow,
    ← hExponent]
  rcases @clamp_mem
    (Retarget.exponent anchorTime.toInt heightDelta.toInt
      tipTime.toInt spacingSeconds.toInt
      halfLifeSeconds.toInt)
    (-2 ^ 32) (2 ^ 32) (by decide) with ⟨hLow, hHigh⟩
  rw [← hExponent] at hLow hHigh
  unfold asertNextBits
  rw [hFloor, hAnchor]
  dsimp only
  rw [if_neg (by
    rw [Int64.le_iff_toInt_le] at hHeight ⊢
    change 1 ≤ _ at hHeight
    change ¬_ ≤ 0
    omega)]
  generalize asertExponent anchorTime heightDelta tipTime
    spacingSeconds halfLifeSeconds = exponent
    at hLow hHigh ⊢
  rcases exponent_parts hLow hHigh with
    ⟨-, hShift, hFraction⟩
  have hFactor := (@fractionFactor_exact
    (exponent.toUInt64 &&& 65535)
    (by rw [hFraction]; omega)).factor
  rw [hFraction] at hFactor
  have hStart := magnitude_start anchor floor
  generalize (if (Wide.fromTarget anchor).exceeds
      (.fromTarget floor) = true then Wide.fromTarget floor
    else Wide.fromTarget anchor) = start at hStart ⊢
  have hFits := @Retarget.product_lt
    (magnitude anchor.bytes) (magnitude floor.bytes) hBelow
    exponent.toInt
  rw [← hStart, ← hFactor] at hFits
  rcases Wide.magnitude_multiplySmall hFits with
    ⟨hProduct, hCarry⟩
  rw [hStart, hFactor] at hProduct
  rw [hCarry, shifted_exact hFloorPos (by omega), hProduct,
    hShift]
  rfl

------------------------------------------------------------
-- Nothing Wraps
------------------------------------------------------------

/- The target the code starts from. -/
def asertStart
    (anchor floor : Target) : Wide :=
  if (Wide.fromTarget anchor).exceeds (.fromTarget floor) then
    .fromTarget floor
  else
    .fromTarget anchor

/- The part of the exponent below the point. -/
def asertFraction
    (exponent : Int64) : UInt64 :=
  exponent.toUInt64 &&& 65535

/-
  The values on the way to the exponent.  The magnitude of
  the deviation is its absolute value, whatever its sign.
-/
structure ExponentExact
    (anchorTime heightDelta tipTime spacingSeconds
      halfLifeSeconds : Int64) : Prop where
  deviation :
    DeviationExact anchorTime heightDelta tipTime
      spacingSeconds
  halfLife :
    ((clampHalfLife halfLifeSeconds).toUInt64.toNat : Int) =
      Retarget.clamp halfLifeSeconds.toInt 1 (2 ^ 62)
  division :
    ∀ {bit : Nat} {remainder quotient : UInt64},
      Divides
          (deviationMagnitude
            (deviationWord anchorTime heightDelta tipTime
              spacingSeconds))
          (clampHalfLife halfLifeSeconds).toUInt64 (bit + 1)
          remainder quotient →
        StepExact
          (deviationMagnitude
            (deviationWord anchorTime heightDelta tipTime
              spacingSeconds))
          (clampHalfLife halfLifeSeconds).toUInt64 bit
          remainder quotient
  exponent :
    (asertExponent anchorTime heightDelta tipTime
        spacingSeconds halfLifeSeconds).toInt =
      Retarget.clamp
        (Retarget.exponent anchorTime.toInt heightDelta.toInt
          tipTime.toInt spacingSeconds.toInt
          halfLifeSeconds.toInt)
        (-2 ^ 32) (2 ^ 32)

/- The values between an exponent and the target. -/
structure TargetExact
    (anchor floor : Target)
    (exponent : Int64) : Prop where
  shift :
    (exponent >>> 16 - 16).toInt =
      exponent.toInt / 2 ^ 16 - 16
  negated :
    (-(exponent >>> 16 - 16)).toInt =
      -(exponent.toInt / 2 ^ 16 - 16)
  polynomial : PolynomialExact (asertFraction exponent)
  pass :
    Wide.PassExact (fractionFactor (asertFraction exponent))
      0 (asertStart anchor floor).limbs
  product :
    ((asertStart anchor floor).multiplySmall
          (fractionFactor
            (asertFraction exponent))).1.magnitude =
        (asertStart anchor floor).magnitude *
          (fractionFactor (asertFraction exponent)).toNat ∧
      ((asertStart anchor floor).multiplySmall
          (fractionFactor (asertFraction exponent))).2 = false
  shiftedLeft :
    ∀ {value : Wide} {bits : UInt64},
      (value.shiftLeft bits).2 = false →
        (value.shiftLeft bits).1.magnitude =
          value.magnitude * 2 ^ bits.toNat
  shiftedRight :
    ∀ (value : Wide) (bits : UInt64),
      (value.shiftRight bits).magnitude =
        value.magnitude / 2 ^ bits.toNat

theorem exponent_exact
    (anchorTime heightDelta tipTime spacingSeconds
      halfLifeSeconds : Int64) :
    ExponentExact anchorTime heightDelta tipTime
      spacingSeconds halfLifeSeconds := by
  have hHalfLife := toInt_clampHalfLife halfLifeSeconds
  rcases @clamp_mem halfLifeSeconds.toInt 1 (2 ^ 62)
    (by decide) with ⟨hLow, hHigh⟩
  have hDivisor := toUInt64_eq (clampHalfLife halfLifeSeconds)
  rw [hHalfLife] at hDivisor
  refine ⟨deviationWord_exact anchorTime heightDelta tipTime
    spacingSeconds, by omega, ?_,
    asertExponent_exact anchorTime heightDelta tipTime
      spacingSeconds halfLifeSeconds⟩
  intro bit remainder quotient hState
  rcases hState.split (by omega) (by omega) with
    ⟨hBit, hQuotient, hSplit⟩
  exact division_step (Nat.lt_of_succ_le hBit) (by omega)
    hQuotient hSplit.2

theorem packed_start
    {anchorBits powLimitBits : UInt32}
    {anchor floor : Target}
    (hAnchor : compactToTarget anchorBits = some anchor)
    (hFloor : compactToTarget powLimitBits = some floor) :
    ∀ limb ∈ (asertStart anchor floor).limbs,
      Packed limb := by
  intro limb hLimb
  rcases List.getElem_of_mem hLimb with ⟨index, hIndex, rfl⟩
  have hHere : (asertStart anchor floor).limbs[index] =
      (asertStart anchor floor).limb index :=
    (List.getD_eq_getElem _ _ hIndex).symm
  rw [hHere]
  unfold asertStart
  split
  · exact Wide.packed_fromTarget hFloor index
  · exact Wide.packed_fromTarget hAnchor index

theorem target_exact
    {anchorBits powLimitBits : UInt32}
    {anchor floor : Target}
    (hAnchor : compactToTarget anchorBits = some anchor)
    (hFloor : compactToTarget powLimitBits = some floor)
    {exponent : Int64}
    (hLow : -2 ^ 32 ≤ exponent.toInt)
    (hHigh : exponent.toInt ≤ 2 ^ 32) :
    TargetExact anchor floor exponent := by
  have hBelow := magnitude_lt floor.bytes
  rw [floor.size_eq] at hBelow
  rcases exponent_parts hLow hHigh with
    ⟨-, hShift, hFraction⟩
  have hPolynomial := @fractionFactor_exact
    (asertFraction exponent)
    (by rw [asertFraction, hFraction]; omega)
  have hFactor := hPolynomial.factor
  have hWord : (asertFraction exponent).toNat =
      (exponent.toInt % 2 ^ 16).toNat :=
    hFraction
  rw [hWord] at hFactor
  have hSmall := factor_lt
    (show (exponent.toInt % 2 ^ 16).toNat < 2 ^ 16 by omega)
  have hFits := @Retarget.product_lt
    (magnitude anchor.bytes) (magnitude floor.bytes) hBelow
    exponent.toInt
  rw [← magnitude_start, ← hFactor] at hFits
  refine ⟨hShift, ?_, hPolynomial, ?_,
    Wide.magnitude_multiplySmall hFits, ?_,
    Wide.magnitude_shiftRight⟩
  · rw [toInt_neg_exact, hShift]
    rw [hShift]
    omega
  · apply Wide.passExact _ (packed_start hAnchor hFloor)
    · decide
    · rw [hFactor]
      exact hSmall
  · intro value bits hKept
    apply Wide.magnitude_shiftLeft
    apply Nat.lt_of_not_le
    intro hLost
    rw [← Wide.shiftLeft_overflow_iff, hKept] at hLost
    cases hLost

/-
  The target is the exact one, and nothing wraps on the way
  but the unsigned negation that takes the magnitude of a
  negative deviation.
-/
theorem asertNextBits_exact
    {anchorBits powLimitBits : UInt32}
    {anchor floor : Target}
    (hAnchor : compactToTarget anchorBits = some anchor)
    (hFloor : compactToTarget powLimitBits = some floor)
    (anchorTime : Int64)
    {heightDelta : Int64}
    (hHeight : 1 ≤ heightDelta)
    (tipTime spacingSeconds halfLifeSeconds : Int64) :
    asertNextBits anchorBits anchorTime heightDelta tipTime
          spacingSeconds halfLifeSeconds powLimitBits =
        targetToCompact
          (targetOf
            (Retarget.target (magnitude anchor.bytes)
              (magnitude floor.bytes)
              (Retarget.exponent anchorTime.toInt
                heightDelta.toInt tipTime.toInt
                spacingSeconds.toInt
                halfLifeSeconds.toInt))) ∧
      ExponentExact anchorTime heightDelta tipTime
        spacingSeconds halfLifeSeconds ∧
      TargetExact anchor floor
        (asertExponent anchorTime heightDelta tipTime
          spacingSeconds halfLifeSeconds) := by
  have hExponent := exponent_exact anchorTime heightDelta
    tipTime spacingSeconds halfLifeSeconds
  refine ⟨asertNextBits_eq hAnchor hFloor anchorTime hHeight
    tipTime spacingSeconds halfLifeSeconds, hExponent, ?_⟩
  rcases @clamp_mem
    (Retarget.exponent anchorTime.toInt heightDelta.toInt
      tipTime.toInt spacingSeconds.toInt
      halfLifeSeconds.toInt)
    (-2 ^ 32) (2 ^ 32) (by decide) with ⟨hLow, hHigh⟩
  rw [← hExponent.exponent] at hLow hHigh
  exact target_exact hAnchor hFloor hLow hHigh

namespace Sample

/- A floor with its three bytes in the middle of a limb. -/
def floorBits : UInt32 :=
  0x1d00ffff

/- The easiest target of the public networks. -/
def floorTarget : Target :=
  targetOf (0xffff * 256 ^ 26)

theorem floorBits_decodes :
    compactToTarget floorBits = some floorTarget := by
  rfl

/- An hour behind schedule, with a half-life of two days. -/
theorem asertNextBits_hour_behind :
    asertNextBits floorBits 0 10 9600 600 172800 floorBits =
        targetToCompact
          (targetOf
            (Retarget.target (magnitude floorTarget.bytes)
              (magnitude floorTarget.bytes)
              (Retarget.exponent 0 10 9600 600 172800))) ∧
      ExponentExact 0 10 9600 600 172800 ∧
      TargetExact floorTarget floorTarget
        (asertExponent 0 10 9600 600 172800) :=
  asertNextBits_exact floorBits_decodes floorBits_decodes 0
    (by decide) 9600 600 172800

/- One second ahead of schedule the negation wraps. -/
theorem negation_wraps :
    compactToTarget floorBits = some floorTarget ∧
      deviationWord 0 1 0 1 < 0 ∧
      deviationMagnitude (deviationWord 0 1 0 1) =
        0 - (deviationWord 0 1 0 1).toUInt64 ∧
      ((0 - (deviationWord 0 1 0 1).toUInt64).toNat : Int) ≠
        0 - ((deviationWord 0 1 0 1).toUInt64.toNat : Int) :=
  ⟨floorBits_decodes, by decide, by decide, by decide⟩

end Sample

end Amarian
