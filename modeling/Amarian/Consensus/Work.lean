import Amarian.Consensus.Exactness
import Amarian.Lib.BitField

/-
  The work of a target is the exact quotient.

  Every routine on byte arrays computes on the numbers the
  arrays stand for: adding one, complementing, shifting,
  subtracting and setting a bit.  The restoring division
  therefore ends with the quotient, and the identity that
  avoids `2^256` adds the one that is missing.

  Key theorems include:
    * `magnitude_shiftLeftBytes`
    * `longDivision_exact`
    * `Work.amount_ofTarget`
    * `Work.add_assoc`
-/

------------------------------------------------------------
-- Bytes And Bits
------------------------------------------------------------

namespace Amarian

theorem testBit_bytes
    (bytes : ByteVec)
    (bit : Nat) :
    (magnitude bytes).testBit bit =
      (bytes.reverse.getD (bit / 8) 0).toNat.testBit
        (bit % 8) := by
  have hLimbs : magnitude bytes =
      Limbs.value 8 (bytes.reverse.map UInt8.toNat) := by
    rw [magnitude, Radix.value, Limbs.value, List.map_reverse]
    rfl
  have hSmall : ∀ limb ∈ bytes.reverse.map UInt8.toNat,
      limb < 2 ^ 8 := digits_lt _
  rw [hLimbs, Limbs.testBit_value (by decide) hSmall,
    List.getD_eq_getElem?_getD, List.getD_eq_getElem?_getD,
    List.getElem?_map]
  cases bytes.reverse[bit / 8]? with
  | none => rfl
  | some byte => rfl

theorem reverse_getD
    {bytes : ByteVec}
    (hSize : bytes.length = 32)
    {index : Nat}
    (hIndex : index < 32) :
    bytes.reverse.getD index 0 =
      bytes.getD (31 - index) 0 := by
  rw [List.getD_eq_getElem?_getD, List.getD_eq_getElem?_getD,
    List.getElem?_reverse (by omega), hSize]

/- A bit of an array of thirty-two bytes. -/
theorem testBit_bytes32
    {bytes : ByteVec}
    (hSize : bytes.length = 32)
    (bit : Nat) :
    (magnitude bytes).testBit bit =
      if bit < 256 then
        (bytes.getD (31 - bit / 8) 0).toNat.testBit (bit % 8)
      else
        false := by
  rw [testBit_bytes]
  split
  · rw [reverse_getD hSize (by omega)]
  · rw [List.getD_eq_default _ _ (by
      rw [List.length_reverse]
      omega)]
    exact Nat.zero_testBit _

theorem byte_testBit_of_le
    (byte : UInt8)
    {bit : Nat}
    (hBit : 8 ≤ bit) :
    byte.toNat.testBit bit = false :=
  Nat.testBit_lt_two_pow
    (Nat.lt_of_lt_of_le byte.toNat_lt
      (Nat.pow_le_pow_right (by decide) hBit))

------------------------------------------------------------
-- Shifting
------------------------------------------------------------

@[simp] theorem length_shiftLeftBytes
    (value : ByteVec)
    (shift : Nat) :
    (shiftLeftBytes value shift).length = 32 := by
  rw [shiftLeftBytes, List.length_map, List.length_range]

theorem getD_shiftLeftBytes
    (value : ByteVec)
    (shift : Nat)
    {position : Nat}
    (hPosition : position < 32) :
    (shiftLeftBytes value shift).getD position 0 =
      UInt8.ofNat
        ((value.getD (position + shift / 8) 0).toNat <<<
            (shift % 8) |||
          (value.getD (position + shift / 8 + 1) 0).toNat >>>
            (8 - shift % 8)) := by
  rw [shiftLeftBytes, List.getD_eq_getElem?_getD,
    List.getElem?_map, List.getElem?_range hPosition]
  rfl

/- The bits of a shifted array, out of two neighbours. -/
theorem testBit_shiftLeftBytes
    {value : ByteVec}
    (hSize : value.length = 32)
    (shift : Nat)
    {bit : Nat}
    (hBit : bit < 256) :
    (magnitude (shiftLeftBytes value shift)).testBit bit =
      (decide (shift ≤ bit) &&
        (magnitude value).testBit (bit - shift)) := by
  have hEnd : value.getD 32 0 = 0 :=
    List.getD_eq_default _ _ (by omega)
  have hPast : ∀ place, 32 ≤ place →
      value.getD place 0 = 0 :=
    fun place hPlace =>
      List.getD_eq_default _ _ (by omega)
  rw [testBit_bytes32 (length_shiftLeftBytes ..),
    if_pos hBit, getD_shiftLeftBytes _ _ (by omega),
    UInt8.toNat_ofNat', Nat.testBit_mod_two_pow,
    decide_eq_true (Nat.mod_lt bit (by decide)),
    Bool.true_and, Nat.testBit_or, Nat.testBit_shiftLeft,
    Nat.testBit_shiftRight, testBit_bytes32 hSize,
    if_pos (by omega)]
  by_cases hReached : shift ≤ bit
  · rw [decide_eq_true hReached, Bool.true_and]
    by_cases hNear : shift % 8 ≤ bit % 8
    · have hPlace :
          (bit - shift) / 8 = bit / 8 - shift / 8 ∧
            (bit - shift) % 8 = bit % 8 - shift % 8 := by
        omega
      rw [decide_eq_true hNear, Bool.true_and,
        byte_testBit_of_le _
          (show 8 ≤ 8 - shift % 8 + bit % 8 by omega),
        Bool.or_false, hPlace.1, hPlace.2,
        show 31 - bit / 8 + shift / 8 =
          31 - (bit / 8 - shift / 8) by omega]
    · have hPlace :
          (bit - shift) / 8 = bit / 8 - shift / 8 - 1 ∧
            (bit - shift) % 8 =
              8 - shift % 8 + bit % 8 := by
        omega
      rw [decide_eq_false hNear, Bool.false_and,
        Bool.false_or, hPlace.1, hPlace.2,
        show 31 - bit / 8 + shift / 8 + 1 =
          31 - (bit / 8 - shift / 8 - 1) by omega]
  · rw [decide_eq_false hReached, Bool.false_and]
    by_cases hNear : shift % 8 ≤ bit % 8
    · rw [hPast (31 - bit / 8 + shift / 8) (by omega),
        hPast (31 - bit / 8 + shift / 8 + 1) (by omega)]
      simp
    · rw [decide_eq_false hNear,
        hPast (31 - bit / 8 + shift / 8 + 1) (by omega)]
      simp

/- A shift that keeps the value in range multiplies. -/
theorem magnitude_shiftLeftBytes
    {value : ByteVec}
    (hSize : value.length = 32)
    {shift : Nat}
    (hFits : magnitude value * 2 ^ shift < 2 ^ 256) :
    magnitude (shiftLeftBytes value shift) =
      magnitude value * 2 ^ shift := by
  apply Nat.eq_of_testBit_eq
  intro bit
  by_cases hBit : bit < 256
  · rw [testBit_shiftLeftBytes hSize shift hBit,
      ← Nat.shiftLeft_eq, Nat.testBit_shiftLeft]
  · have hPower : 2 ^ 256 ≤ 2 ^ bit :=
      Wide.two_pow_le (Nat.le_of_not_lt hBit)
    rw [testBit_bytes32 (length_shiftLeftBytes ..),
      if_neg hBit, Nat.testBit_lt_two_pow
        (Nat.lt_of_lt_of_le hFits hPower)]

------------------------------------------------------------
-- Setting A Bit
------------------------------------------------------------

@[simp] theorem length_setBit
    (value : ByteVec)
    (index : Nat) :
    (setBit value index).length = value.length :=
  List.length_set ..

theorem testBit_setBit
    {value : ByteVec}
    (hSize : value.length = 32)
    {index : Nat}
    (hIndex : index < 256)
    (bit : Nat) :
    (magnitude (setBit value index)).testBit bit =
      ((magnitude value).testBit bit ||
        decide (bit = index)) := by
  rw [testBit_bytes32 ((length_setBit ..).trans hSize),
    testBit_bytes32 hSize]
  split
  · rename_i hBit
    unfold setBit
    dsimp only
    by_cases hByte : bit / 8 = index / 8
    · rw [hByte, List.getD_eq_getElem?_getD,
        List.getElem?_set_self (by omega), Option.getD_some,
        UInt8.toNat_or, Nat.testBit_or,
        BitField.toNat_mask (Nat.mod_lt _ (by decide)),
        Nat.testBit_two_pow]
      congr 1
      rw [decide_eq_decide]
      omega
    · rw [List.getD_eq_getElem?_getD,
        List.getElem?_set_ne (by omega),
        ← List.getD_eq_getElem?_getD,
        decide_eq_false (by rintro rfl; exact hByte rfl),
        Bool.or_false]
  · rw [decide_eq_false (by omega), Bool.or_false]

/- Setting a bit below every other one adds it. -/
theorem magnitude_setBit
    {value : ByteVec}
    (hSize : value.length = 32)
    {index : Nat}
    (hIndex : index < 256)
    (hClear : 2 ^ (index + 1) ∣ magnitude value) :
    magnitude (setBit value index) =
      magnitude value + 2 ^ index := by
  rcases hClear with ⟨above, hAbove⟩
  have hLess : 2 ^ index < 2 ^ (index + 1) :=
    Nat.pow_lt_pow_right (by decide) (Nat.lt_succ_self _)
  rw [hAbove, Nat.two_pow_add_eq_or_of_lt hLess, ← hAbove]
  apply Nat.eq_of_testBit_eq
  intro bit
  rw [testBit_setBit hSize hIndex, Nat.testBit_or,
    Nat.testBit_two_pow]
  congr 1
  rw [decide_eq_decide]
  exact eq_comm

------------------------------------------------------------
-- One More, The Complement And The Difference
------------------------------------------------------------

theorem incrementLE_value
    (bytes : ByteVec) :
    (incrementLE bytes).1.length = bytes.length ∧
      magnitude (incrementLE bytes).1.reverse +
          (if (incrementLE bytes).2 then
            256 ^ bytes.length
          else 0) =
        magnitude bytes.reverse + 1 := by
  induction bytes with
  | nil => exact ⟨rfl, rfl⟩
  | cons byte bytes ih =>
      rcases ih with ⟨hLength, hValue⟩
      have hByte := byte.toNat_lt
      unfold incrementLE
      split
      · rename_i hFull
        subst hFull
        refine ⟨by simp [hLength], ?_⟩
        rw [magnitude_reverse_cons, magnitude_reverse_cons,
          List.length_cons, Nat.pow_succ']
        have hZero : ((0xFF : UInt8) + 1).toNat = 0 := rfl
        have hMost : (0xFF : UInt8).toNat = 255 := rfl
        dsimp only
        rw [hZero, hMost]
        split
        · rename_i hCarried
          rw [if_pos hCarried] at hValue
          omega
        · rename_i hKept
          rw [if_neg hKept] at hValue
          omega
      · rename_i hRoom
        refine ⟨rfl, ?_⟩
        have hNext : (byte + 1).toNat = byte.toNat + 1 := by
          have hNe : byte.toNat ≠ 255 :=
            fun hEq => hRoom (UInt8.toNat_inj.mp hEq)
          rw [UInt8.toNat_add]
          exact Nat.mod_eq_of_lt (by
            change byte.toNat + 1 < 256
            omega)
        rw [magnitude_reverse_cons, magnitude_reverse_cons,
          hNext]
        simp only [Bool.false_eq_true, if_false]
        omega

/- All ones less a number is its complement. -/
theorem magnitude_complement
    (bytes : ByteVec) :
    magnitude (bytes.map fun byte => ~~~byte) +
        magnitude bytes + 1 =
      256 ^ bytes.length := by
  induction bytes with
  | nil => rfl
  | cons byte bytes ih =>
      have hByte : (~~~byte).toNat = 255 - byte.toNat :=
        UInt8.toNat_not byte
      have hSmall := byte.toNat_lt
      rw [List.map_cons, magnitude_cons, magnitude_cons,
        List.length_map, hByte, List.length_cons,
        Nat.pow_succ']
      generalize 256 ^ bytes.length = place at ih ⊢
      have hSplit : (255 - byte.toNat) * place +
          byte.toNat * place = 255 * place := by
        rw [← Nat.add_mul]
        congr 1
        omega
      omega

/- A difference with its borrow is worth what was taken. -/
theorem subtractLE_value
    {first second : ByteVec}
    (hLength : first.length = second.length) :
    ∀ {borrow : Nat},
      borrow ≤ 1 →
        (subtractLE borrow first second).length =
            first.length ∧
          ∃ out ≤ 1,
            magnitude (subtractLE borrow first
                  second).reverse +
                magnitude second.reverse + borrow =
              magnitude first.reverse +
                out * 256 ^ first.length := by
  induction first generalizing second with
  | nil =>
      intro borrow hBorrow
      rcases List.length_eq_zero_iff.mp hLength.symm with rfl
      exact ⟨rfl, borrow, hBorrow, by simp [subtractLE]⟩
  | cons a as ih =>
      intro borrow hBorrow
      cases second with
      | nil => cases hLength
      | cons b bs =>
          have hA := a.toNat_lt
          have hB := b.toNat_lt
          generalize hNext :
            (if a.toNat < b.toNat + borrow then 1 else 0) =
              next
          have hSmall : next ≤ 1 := by
            rw [← hNext]
            split
            · omega
            · omega
          rcases ih (Nat.succ.inj hLength) hSmall with
            ⟨hSize, out, hOut, hValue⟩
          have hDigit :
              (UInt8.ofNat
                  (a.toNat + next * 256 -
                    (b.toNat + borrow))).toNat +
                  b.toNat + borrow =
                a.toNat + next * 256 := by
            rw [UInt8.toNat_ofNat']
            rw [← hNext]
            split
            · omega
            · omega
          have hStep :
              subtractLE borrow (a :: as) (b :: bs) =
                UInt8.ofNat
                    (a.toNat + next * 256 -
                      (b.toNat + borrow)) ::
                  subtractLE next as bs := by
            rw [← hNext]
            rfl
          rw [hStep]
          refine ⟨by simp [hSize], out, hOut, ?_⟩
          have hPlace :
              out * 256 ^ (a :: as).length =
                256 * (out * 256 ^ as.length) := by
            rw [List.length_cons, Nat.pow_succ']
            ring
          rw [magnitude_reverse_cons, magnitude_reverse_cons,
            magnitude_reverse_cons, hPlace]
          omega

/- Taking what is no greater leaves the difference. -/
theorem magnitude_subtract
    {first second : ByteVec}
    (hLength : first.length = second.length)
    (hLe : magnitude second ≤ magnitude first) :
    (subtractLE 0 first.reverse
          second.reverse).reverse.length =
        first.length ∧
      magnitude
          (subtractLE 0 first.reverse second.reverse).reverse =
        magnitude first - magnitude second := by
  have hReversed :
      first.reverse.length = second.reverse.length := by
    simpa using hLength
  rcases subtractLE_value hReversed (Nat.zero_le 1) with
    ⟨hSize, out, hOut, hValue⟩
  rw [List.reverse_reverse, List.reverse_reverse,
    List.length_reverse] at hValue
  rw [List.length_reverse] at hSize
  have hBelow := magnitude_lt
    (subtractLE 0 first.reverse second.reverse).reverse
  rw [List.length_reverse, hSize] at hBelow
  refine ⟨by rw [List.length_reverse, hSize], ?_⟩
  have hSecond := magnitude_lt second
  rw [← hLength] at hSecond
  have hZero : out = 0 := by
    apply Nat.eq_zero_of_not_pos
    intro hPos
    have hOne : out = 1 := by omega
    rw [hOne, Nat.one_mul] at hValue
    omega
  rw [hZero, Nat.zero_mul] at hValue
  omega

------------------------------------------------------------
-- The Length In Bits
------------------------------------------------------------

/- One past the highest bit of the number. -/
theorem bitLength_bounds
    (bytes : ByteVec) :
    magnitude bytes < 2 ^ bitLength bytes ∧
      (0 < bitLength bytes →
        2 ^ (bitLength bytes - 1) ≤ magnitude bytes) ∧
      bitLength bytes ≤ 8 * bytes.length := by
  induction bytes with
  | nil =>
      exact ⟨Nat.one_pos, fun hPos => absurd hPos
        (Nat.lt_irrefl 0), Nat.le_refl 0⟩
  | cons byte bytes ih =>
      rcases ih with ⟨hHigh, hLow, hSize⟩
      have hRest := magnitude_lt bytes
      have hByte := byte.toNat_lt
      unfold bitLength
      rw [magnitude_cons, List.length_cons]
      split
      · rename_i hSome
        have hNonzero : byte.toNat ≠ 0 :=
          fun hZero => hSome (UInt8.toNat_inj.mp hZero)
        have hPlaces : 256 ^ bytes.length =
            2 ^ (bytes.length * 8) := by
          rw [Nat.mul_comm, Nat.pow_mul]
        have hAtLeast := Nat.log2_self_le hNonzero
        have hBelow := @Nat.lt_log2_self byte.toNat
        have hLog : byte.toNat.log2 < 8 :=
          (Nat.log2_lt hNonzero).mpr hByte
        rw [hPlaces] at hRest ⊢
        refine ⟨?_, fun _ => ?_, by omega⟩
        · rw [Nat.pow_add]
          have hTop := Nat.mul_le_mul_left
            (2 ^ (bytes.length * 8)) hBelow
          rw [Nat.mul_succ, Nat.mul_comm _ byte.toNat] at hTop
          omega
        · rw [← Nat.add_assoc, Nat.add_sub_cancel,
            Nat.pow_add]
          have hTop := Nat.mul_le_mul_left
            (2 ^ (bytes.length * 8)) hAtLeast
          rw [Nat.mul_comm _ byte.toNat] at hTop
          omega
      · rename_i hZero
        rw [not_not] at hZero
        subst hZero
        rw [show UInt8.toNat 0 = 0 from rfl, Nat.zero_mul,
          Nat.zero_add]
        exact ⟨hHigh, hLow, by omega⟩

------------------------------------------------------------
-- The Division
------------------------------------------------------------

/-
  Each shift compares and subtracts the divisor at its place,
  so the quotient and the remainder stay those of what has
  been divided.
-/
theorem longDivision_exact
    {divisor : ByteVec}
    (hDivisor : divisor.length = 32)
    {value : Nat} :
    ∀ {shift : Nat} {quotient remainder : ByteVec},
      quotient.length = 32 →
        remainder.length = 32 →
          magnitude divisor * 2 ^ shift < 2 ^ 256 * 2 →
            shift ≤ 256 →
              Restoring.Aligned (magnitude divisor) value shift
                  (magnitude quotient)
                  (magnitude remainder) →
                (longDivision divisor shift quotient
                    remainder).length = 32 ∧
                  magnitude
                      (longDivision divisor shift quotient
                        remainder) =
                    value / magnitude divisor := by
  intro shift
  induction shift with
  | zero =>
      intro quotient remainder hQuotient _ _ _ hAligned
      exact ⟨hQuotient, hAligned.quotient_eq⟩
  | succ shift ih =>
      intro quotient remainder hQuotient hRemainder hFits
        hShift hAligned
      have hHere : magnitude divisor * 2 ^ shift < 2 ^ 256 := by
        rw [Nat.pow_succ, ← Nat.mul_assoc] at hFits
        exact Nat.lt_of_mul_lt_mul_right hFits
      have hShifted := magnitude_shiftLeftBytes hDivisor hHere
      have hSize := length_shiftLeftBytes divisor shift
      have hNext :
          magnitude divisor * 2 ^ shift < 2 ^ 256 * 2 := by
        omega
      unfold longDivision
      dsimp only
      split
      · rename_i hLess
        rw [bytesLess_iff (hRemainder.trans hSize.symm),
          hShifted] at hLess
        exact ih hQuotient hRemainder hNext (by omega)
          (hAligned.skip hLess)
      · rename_i hFitsIn
        rw [bytesLess_iff (hRemainder.trans hSize.symm),
          hShifted, Nat.not_lt] at hFitsIn
        rcases magnitude_subtract
          (hRemainder.trans hSize.symm)
          (by rw [hShifted]; exact hFitsIn) with
          ⟨hLength, hDifference⟩
        rw [hShifted] at hDifference
        have hSet := magnitude_setBit hQuotient
          (show shift < 256 by omega) hAligned.places
        apply ih ((length_setBit ..).trans hQuotient)
          (hLength.trans hRemainder) hNext (by omega)
        rw [hSet, hDifference]
        exact hAligned.take hFitsIn

theorem magnitude_replicate_zero
    (count : Nat) :
    magnitude (List.replicate count 0) = 0 := by
  induction count with
  | zero => rfl
  | succ count ih =>
      rw [List.replicate_succ, magnitude_cons, ih]
      simp

theorem ofList_bytes
    {bytes : ByteVec}
    (hSize : bytes.length = 32) :
    (Bytes32.ofList bytes).bytes = bytes := by
  change (bytes ++ List.replicate 32 0).take 32 = bytes
  rw [List.take_append_of_le_length
    (Nat.le_of_eq hSize.symm), List.take_of_length_le
    (Nat.le_of_eq hSize)]

/- The aligned division, and the case with nothing to align. -/
theorem quotient_exact
    {dividend divisor : ByteVec}
    (hDividend : dividend.length = 32)
    (hDivisor : divisor.length = 32)
    (hPos : 0 < magnitude divisor) :
    (if bitLength dividend ≥ bitLength divisor then
          longDivision divisor
            (bitLength dividend - bitLength divisor + 1)
            (List.replicate 32 0) dividend
        else
          List.replicate 32 0).length = 32 ∧
      magnitude
          (if bitLength dividend ≥ bitLength divisor then
            longDivision divisor
              (bitLength dividend - bitLength divisor + 1)
              (List.replicate 32 0) dividend
          else
            List.replicate 32 0) =
        magnitude dividend / magnitude divisor := by
  rcases bitLength_bounds dividend with
    ⟨hHigh, -, hRoom⟩
  rcases bitLength_bounds divisor with
    ⟨hDivisorHigh, hDivisorLow, hDivisorRoom⟩
  rw [hDividend] at hRoom
  have hSome : 0 < bitLength divisor := by
    apply Nat.pos_of_ne_zero
    intro hZero
    rw [hZero, Nat.pow_zero] at hDivisorHigh
    omega
  have hAtLeast := hDivisorLow hSome
  split
  · rename_i hLonger
    generalize hBits : bitLength dividend = dividendBits
      at hHigh hRoom hLonger ⊢
    generalize bitLength divisor = divisorBits
      at hDivisorHigh hAtLeast hSome hLonger ⊢
    apply longDivision_exact hDivisor
      (List.length_replicate ..) hDividend
    · -- aligned, the divisor is no longer than the dividend
      calc magnitude divisor *
            2 ^ (dividendBits - divisorBits + 1)
          < 2 ^ divisorBits *
              2 ^ (dividendBits - divisorBits + 1) :=
            Nat.mul_lt_mul_of_pos_right hDivisorHigh
              (Nat.two_pow_pos _)
        _ = 2 ^ dividendBits * 2 := by
            rw [← Nat.pow_add, ← Nat.pow_succ]
            congr 1
            omega
        _ ≤ 2 ^ 256 * 2 :=
            Nat.mul_le_mul_right 2 (Wide.two_pow_le hRoom)
    · omega
    · rw [magnitude_replicate_zero]
      refine ⟨by omega, ?_, Nat.dvd_zero _⟩
      calc magnitude dividend
          < 2 ^ dividendBits := hHigh
        _ = 2 ^ (divisorBits - 1) *
              2 ^ (dividendBits - divisorBits + 1) := by
            rw [← Nat.pow_add]
            congr 1
            omega
        _ ≤ magnitude divisor *
              2 ^ (dividendBits - divisorBits + 1) :=
            Nat.mul_le_mul_right _ hAtLeast
  · rename_i hShorter
    refine ⟨List.length_replicate .., ?_⟩
    rw [magnitude_replicate_zero, Nat.div_eq_of_lt]
    calc magnitude dividend
        < 2 ^ bitLength dividend := hHigh
      _ ≤ 2 ^ (bitLength divisor - 1) :=
          Wide.two_pow_le (by omega)
      _ ≤ magnitude divisor := hAtLeast

------------------------------------------------------------
-- Work
------------------------------------------------------------

namespace Work

theorem amount_lt
    (work : Work) :
    work.amount < 2 ^ 256 := by
  have hBelow := magnitude_lt work.bytes.bytes
  rw [work.bytes.size_eq] at hBelow
  exact hBelow

theorem amount_inj
    {first second : Work}
    (hSame : first.amount = second.amount) :
    first = second := by
  cases first
  cases second
  exact congrArg Work.mk (magnitude_inj hSame)

/- The work of a target is the quotient of `2^256`. -/
theorem amount_ofTarget
    {target : Target}
    (hTarget : target ≠ Bytes32.zero) :
    (ofTarget target).amount =
      2 ^ 256 / (magnitude target.bytes + 1) := by
  have hBelow := magnitude_lt target.bytes
  have hPos := magnitude_pos_iff.mpr hTarget
  have hComplement := magnitude_complement target.bytes
  rcases incrementLE_value target.bytes.reverse with
    ⟨hLength, hNext⟩
  rw [List.reverse_reverse, List.length_reverse,
    target.size_eq] at hNext
  rw [List.length_reverse, target.size_eq] at hLength
  rw [target.size_eq, show 256 ^ 32 = 2 ^ 256 from rfl]
    at hBelow hComplement
  rw [show 256 ^ 32 = 2 ^ 256 from rfl] at hNext
  unfold ofTarget
  rw [if_neg hTarget]
  generalize hIncrement : incrementLE target.bytes.reverse =
    incremented at hLength hNext ⊢
  rcases incremented with ⟨divisorLE, carried⟩
  dsimp only at hLength hNext ⊢
  split
  · rename_i hCarried
    rw [if_pos hCarried] at hNext
    have hAll : magnitude target.bytes + 1 = 2 ^ 256 := by
      omega
    rw [amount_one, hAll, Nat.div_self (by decide)]
  · rename_i hKept
    rw [if_neg hKept, Nat.add_zero] at hNext
    have hSize : divisorLE.reverse.length = 32 := by
      rw [List.length_reverse, hLength]
    have hDividend :
        (target.bytes.map fun byte => ~~~byte).length =
          32 := by
      rw [List.length_map, target.size_eq]
    rcases quotient_exact hDividend hSize (by omega) with
      ⟨hQuotientSize, hQuotient⟩
    rw [amount_add, amount_one]
    change min (magnitude (Bytes32.ofList _).bytes + 1) _ = _
    rw [ofList_bytes hQuotientSize, hQuotient, hNext]
    -- the dividend and the divisor make up `2^256`
    generalize magnitude
      (target.bytes.map fun byte => ~~~byte) = dividend
      at hComplement ⊢
    have hWhole :
        2 ^ 256 / (magnitude target.bytes + 1) =
          dividend / (magnitude target.bytes + 1) + 1 := by
      rw [← hComplement, Nat.add_assoc,
        Nat.add_div_right _ (Nat.succ_pos _)]
    have hAtMost := Nat.div_le_self dividend
      (magnitude target.bytes + 1)
    rw [hWhole, Nat.min_eq_left (by omega)]

/- A target asks for some work, and a greater one for less. -/
theorem amount_ofTarget_pos
    {target : Target}
    (hTarget : target ≠ Bytes32.zero) :
    1 ≤ (ofTarget target).amount := by
  have hBelow := magnitude_lt target.bytes
  rw [target.size_eq] at hBelow
  rw [amount_ofTarget hTarget,
    Nat.le_div_iff_mul_le (Nat.succ_pos _), Nat.one_mul]
  exact hBelow

theorem amount_ofTarget_anti
    {first second : Target}
    (hFirst : first ≠ Bytes32.zero)
    (hLe :
      magnitude first.bytes ≤ magnitude second.bytes) :
    (ofTarget second).amount ≤ (ofTarget first).amount := by
  have hPos := magnitude_pos_iff.mpr hFirst
  have hSecond := magnitude_pos_iff.mp
    (Nat.lt_of_lt_of_le hPos hLe)
  rw [amount_ofTarget hFirst, amount_ofTarget hSecond]
  exact Nat.div_le_div_left (Nat.succ_le_succ hLe)
    (Nat.succ_pos _)

theorem add_comm
    (first second : Work) :
    first.add second = second.add first := by
  apply amount_inj
  rw [amount_add, amount_add, Nat.add_comm]

theorem add_assoc
    (first second third : Work) :
    (first.add second).add third =
      first.add (second.add third) := by
  apply amount_inj
  rw [amount_add, amount_add, amount_add, amount_add]
  omega

theorem add_mono
    {first second : Work}
    (hLe : first.amount ≤ second.amount)
    (other : Work) :
    (first.add other).amount ≤
      (second.add other).amount := by
  rw [amount_add, amount_add]
  omega

end Work

end Amarian
