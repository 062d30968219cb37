import Amarian.Consensus.Asert
import Amarian.Lib.Radix
import Mathlib.Data.List.GetD
import Mathlib.Data.Nat.Bitwise

/-
  The numbers behind targets and wide values.

  The compact form keeps the three leading bytes of a target,
  so decoding it never gives a greater one.  The retargeting
  rule compares wide values with the floor before it encodes
  them, so what it yields never decodes above the floor.

  Key definitions include:
    * `magnitude`
    * `Wide.magnitude`
    * `Work.amount`

  Key theorems include:
    * `magnitude_le_of_compact`
    * `asertNextBits_within`
    * `Work.amount_add`
-/

------------------------------------------------------------
-- Byte Strings
------------------------------------------------------------

namespace Amarian

/- Most significant byte first. -/
def magnitude
    (bytes : ByteVec) : Nat :=
  Radix.value 256 (bytes.map UInt8.toNat)

theorem digits_lt
    (bytes : ByteVec) :
    ∀ digit ∈ bytes.map UInt8.toNat, digit < 256 := by
  intro digit hDigit
  rcases List.mem_map.mp hDigit with ⟨byte, -, rfl⟩
  exact byte.toNat_lt

theorem magnitude_cons
    (byte : UInt8)
    (bytes : ByteVec) :
    magnitude (byte :: bytes) =
      byte.toNat * 256 ^ bytes.length + magnitude bytes := by
  rw [magnitude, List.map_cons, Radix.value_cons,
    List.length_map, magnitude]

@[simp] theorem magnitude_nil :
    magnitude [] = 0 :=
  rfl

theorem magnitude_lt
    (bytes : ByteVec) :
    magnitude bytes < 256 ^ bytes.length := by
  have hLess := Radix.value_lt (digits_lt bytes)
  rw [List.length_map] at hLess
  exact hLess

theorem bytesLess_iff
    {first second : ByteVec}
    (hLength : first.length = second.length) :
    bytesLess first second = true ↔
      magnitude first < magnitude second := by
  induction first generalizing second with
  | nil =>
      rw [List.eq_nil_of_length_eq_zero hLength.symm]
      simp [bytesLess]
  | cons byte bytes ih =>
      cases second with
      | nil => cases hLength
      | cons other others =>
          have hRest := Nat.succ.inj hLength
          rw [magnitude, magnitude, List.map_cons,
            List.map_cons,
            Radix.value_cons_lt (digits_lt _) (digits_lt _)
              (by simpa using hRest)]
          unfold bytesLess
          by_cases hSame : byte = other
          · subst hSame
            rw [if_pos rfl, ih hRest]
            simp [magnitude]
          · have hNe : byte.toNat ≠ other.toNat :=
              fun hEq => hSame (UInt8.toNat_inj.mp hEq)
            rw [if_neg hSame, decide_eq_true_eq,
              UInt8.lt_iff_toNat_lt]
            simp [hNe]

/- The leading zeros of a string are no part of its number. -/
theorem magnitude_dropWhile
    (bytes : ByteVec) :
    magnitude (bytes.dropWhile (· == 0)) =
      magnitude bytes := by
  induction bytes with
  | nil => rfl
  | cons byte bytes ih =>
      by_cases hZero : byte = 0
      · rw [List.dropWhile_cons_of_pos (by simpa using hZero),
          ih, magnitude_cons, hZero]
        simp
      · rw [List.dropWhile_cons_of_neg (by simpa using hZero)]

------------------------------------------------------------
-- The Compact Form
------------------------------------------------------------

/- The high byte. -/
def compactExponent
    (bits : UInt32) : Nat :=
  bits.toNat / 2 ^ 24

/- The three bytes below it. -/
def compactMantissa
    (bits : UInt32) : Nat :=
  bits.toNat % 2 ^ 24

/- An exponent above a mantissa of three bytes. -/
theorem join_compact
    {exponent mantissa : UInt32}
    (hExponent : exponent.toNat < 2 ^ 8)
    (hMantissa : mantissa.toNat < 2 ^ 24) :
    compactExponent ((exponent <<< 24) ||| mantissa) =
        exponent.toNat ∧
      compactMantissa ((exponent <<< 24) ||| mantissa) =
        mantissa.toNat := by
  have hJoin :
      ((exponent <<< 24) ||| mantissa).toNat =
        exponent.toNat * 2 ^ 24 + mantissa.toNat := by
    rw [UInt32.toNat_or, UInt32.toNat_shiftLeft,
      show UInt32.toNat 24 % 32 = 24 from rfl,
      Nat.shiftLeft_eq, Nat.mod_eq_of_lt (by omega),
      Nat.mul_comm,
      Nat.two_pow_add_eq_or_of_lt hMantissa]
  unfold compactExponent compactMantissa
  rw [hJoin]
  omega

/- One more byte on the right of a mantissa. -/
theorem append_byte
    {mantissa : UInt32}
    (hMantissa : mantissa.toNat < 2 ^ 16)
    (byte : UInt8) :
    ((mantissa <<< 8) ||| byte.toUInt32).toNat =
      mantissa.toNat * 256 + byte.toNat := by
  have hByte : byte.toNat < 2 ^ 8 := byte.toNat_lt
  rw [UInt32.toNat_or, UInt32.toNat_shiftLeft,
    show UInt32.toNat 8 % 32 = 8 from rfl, Nat.shiftLeft_eq,
    Nat.mod_eq_of_lt (by omega), Nat.mul_comm,
    UInt8.toNat_toUInt32,
    ← Nat.two_pow_add_eq_or_of_lt hByte]

/- The three leading bytes, zeros behind the end. -/
def leading
    (bytes : ByteVec) : Nat :=
  ((bytes.getD 0 0).toNat * 256 + (bytes.getD 1 0).toNat) *
      256 +
    (bytes.getD 2 0).toNat

/- They are the quotient of the number by its lower places. -/
theorem leading_eq
    (bytes : ByteVec) :
    leading bytes =
      magnitude bytes * 256 ^ 3 / 256 ^ bytes.length := by
  match bytes with
  | [] => simp [leading]
  | [a] =>
      simp [leading, magnitude_cons]
      omega
  | [a, b] =>
      simp [leading, magnitude_cons]
      omega
  | a :: b :: d :: rest =>
      have hPlace :
          256 ^ (a :: b :: d :: rest).length =
            256 ^ rest.length * 256 ^ 3 := by
        rw [← Nat.pow_add]
        rfl
      have hRest := magnitude_lt rest
      have hPos : 0 < 256 ^ rest.length :=
        Nat.pow_pos (by decide)
      have hValue :
          magnitude (a :: b :: d :: rest) =
            magnitude rest +
              256 ^ rest.length *
                ((a.toNat * 256 + b.toNat) * 256 +
                  d.toNat) := by
        simp only [magnitude_cons, List.length_cons,
          Nat.pow_succ]
        ring
      rw [hPlace, Nat.mul_div_mul_right _ _ (by decide),
        hValue, Nat.add_mul_div_left _ _ hPos,
        Nat.div_eq_of_lt hRest, Nat.zero_add]
      rfl

theorem leading_le
    (bytes : ByteVec) :
    leading bytes * 256 ^ bytes.length ≤
      magnitude bytes * 256 ^ 3 := by
  rw [leading_eq]
  exact Nat.div_mul_le_self ..

theorem leading_lt
    (bytes : ByteVec) :
    leading bytes < 2 ^ 24 := by
  unfold leading
  have hFirst := (bytes.getD 0 0).toNat_lt
  have hSecond := (bytes.getD 1 0).toNat_lt
  have hThird := (bytes.getD 2 0).toNat_lt
  omega

/- The reserved bit is the highest of a mantissa. -/
theorem mantissaSignBit_iff
    {mantissa : UInt32}
    (hMantissa : mantissa.toNat < 2 ^ 24) :
    mantissa &&& mantissaSignBit ≠ 0 ↔
      2 ^ 23 ≤ mantissa.toNat := by
  have hBit :
      (mantissa &&& mantissaSignBit).toNat =
        mantissa.toNat / 2 ^ 23 % 2 * 2 ^ 23 := by
    rw [UInt32.toNat_and]
    change mantissa.toNat &&& 2 ^ 23 = _
    rw [Nat.and_two_pow, Nat.toNat_testBit]
  rw [ne_eq, ← UInt32.toNat_inj, hBit]
  change ¬_ = 0 ↔ _
  omega

/-
  The size of a target without its leading zeros, and its
  three leading bytes; one byte is given up where the first
  would set the reserved bit.
-/
theorem targetToCompact_parts
    {target : Target}
    {rest : ByteVec}
    (hRest : target.bytes.dropWhile (· == 0) = rest)
    (hSome : rest ≠ []) :
    (leading rest < 2 ^ 23 ∧
        compactExponent (targetToCompact target) =
          rest.length ∧
        compactMantissa (targetToCompact target) =
          leading rest) ∨
      (2 ^ 23 ≤ leading rest ∧
        compactExponent (targetToCompact target) =
          rest.length + 1 ∧
        compactMantissa (targetToCompact target) =
          leading rest / 256) := by
  unfold targetToCompact
  dsimp only
  have hAll := List.takeWhile_append_dropWhile
    (p := (· == 0)) (l := target.bytes)
  have hZeros : (target.bytes.takeWhile (· == 0)).length +
      (target.bytes.dropWhile (· == 0)).length = 32 := by
    rw [← List.length_append, hAll, target.size_eq]
  have hByte : ∀ offset,
      target.bytes.getD
          ((target.bytes.takeWhile (· == 0)).length +
            offset) 0 =
        (target.bytes.dropWhile (· == 0)).getD offset 0 := by
    intro offset
    have hBehind := List.getD_append_right
      (target.bytes.takeWhile (· == 0))
      (target.bytes.dropWhile (· == 0)) 0 _
      (Nat.le_add_right _ offset)
    rw [hAll, Nat.add_sub_cancel_left] at hBehind
    exact hBehind
  rw [hRest] at hZeros
  simp only [hRest] at hByte
  generalize
    (target.bytes.takeWhile (· == 0)).length = first
    at hZeros hByte ⊢
  have hLong := List.length_pos_of_ne_nil hSome
  rw [if_neg (by omega)]
  have hSize : (UInt32.ofNat (32 - first)).toNat =
      rest.length := by
    rw [UInt32.toNat_ofNat', Nat.mod_eq_of_lt (by omega)]
    omega
  have hMantissa :
      ([0, 1, 2].foldl
        (fun (mantissa : UInt32) (offset : Nat) =>
          (mantissa <<< 8) |||
            (target.bytes.getD (first + offset) 0).toUInt32)
        0).toNat = leading rest := by
    simp only [List.foldl_cons, List.foldl_nil, hByte]
    have hZero : (0 : UInt32).toNat = 0 := rfl
    have hOne := @append_byte 0 (by decide)
      (rest.getD 0 0)
    have hTwo := @append_byte
      (((0 : UInt32) <<< 8) ||| (rest.getD 0 0).toUInt32)
      (by have := (rest.getD 0 0).toNat_lt; omega)
      (rest.getD 1 0)
    rw [append_byte]
    · rw [hTwo, hOne, hZero, leading]
      omega
    · rw [hTwo, hOne, hZero]
      have := (rest.getD 0 0).toNat_lt
      have := (rest.getD 1 0).toNat_lt
      omega
  have hSmall := leading_lt rest
  generalize
    [0, 1, 2].foldl
      (fun (mantissa : UInt32) (offset : Nat) =>
        (mantissa <<< 8) |||
          (target.bytes.getD (first + offset) 0).toUInt32)
      0 = mantissa at hMantissa ⊢
  split
  · rename_i hSign
    have hHigh := (mantissaSignBit_iff (by omega)).mp hSign
    have hShifted : (mantissa >>> 8).toNat =
        leading rest / 256 := by
      rw [UInt32.toNat_shiftRight,
        show UInt32.toNat 8 % 32 = 8 from rfl,
        Nat.shiftRight_eq_div_pow, hMantissa]
    have hNext : (UInt32.ofNat (32 - first) + 1).toNat =
        rest.length + 1 := by
      rw [UInt32.toNat_add, hSize,
        show UInt32.toNat 1 = 1 from rfl,
        Nat.mod_eq_of_lt (by omega)]
    rcases @join_compact (UInt32.ofNat (32 - first) + 1)
      (mantissa >>> 8) (by omega) (by omega) with
      ⟨hExponent, hLow⟩
    rw [hExponent, hLow, hNext, hShifted]
    exact .inr ⟨by omega, rfl, rfl⟩
  · rename_i hSign
    have hHigh := (not_congr
      (@mantissaSignBit_iff mantissa (by omega))).mp hSign
    rcases @join_compact (UInt32.ofNat (32 - first))
      mantissa (by omega) (by omega) with
      ⟨hExponent, hLow⟩
    rw [hExponent, hLow, hSize, hMantissa]
    exact .inl ⟨by omega, rfl, rfl⟩

theorem magnitude_eq_zero
    {target : Target}
    (hNone : target.bytes.dropWhile (· == 0) = []) :
    magnitude target.bytes = 0 := by
  rw [← magnitude_dropWhile, hNone]
  rfl

theorem targetToCompact_zero
    {target : Target}
    (hNone : target.bytes.dropWhile (· == 0) = []) :
    targetToCompact target = 0 := by
  have hAll := List.takeWhile_append_dropWhile
    (p := (· == 0)) (l := target.bytes)
  rw [hNone, List.append_nil] at hAll
  unfold targetToCompact
  dsimp only
  rw [hAll, target.size_eq, if_pos rfl]

theorem targetToCompact_le
    (target : Target) :
    compactMantissa (targetToCompact target) *
        256 ^ compactExponent (targetToCompact target) ≤
      magnitude target.bytes * 256 ^ 3 := by
  generalize hRest :
    target.bytes.dropWhile (· == 0) = rest
  by_cases hNone : rest = []
  · subst hNone
    rw [targetToCompact_zero hRest]
    exact Nat.zero_le _
  have hLeading := leading_le rest
  rw [← magnitude_dropWhile target.bytes, hRest]
  rcases targetToCompact_parts hRest hNone with
    ⟨-, hExponent, hMantissa⟩ | ⟨-, hExponent, hMantissa⟩
  · rw [hExponent, hMantissa]
    exact hLeading
  · rw [hExponent, hMantissa]
    refine Nat.le_trans ?_ hLeading
    rw [Nat.pow_succ', ← Nat.mul_assoc]
    exact Nat.mul_le_mul_right _ (Nat.div_mul_le_self ..)

/- The byte of a mantissa that `placeMantissaByte` places. -/
def mantissaByte
    (mantissa : UInt32)
    (offset : Nat) : UInt8 :=
  (mantissa >>> UInt32.ofNat (8 * (2 - offset))).toUInt8

/- Nothing is written at this place or behind it. -/
def BlankFrom
    (place : Int)
    (target : Target) : Prop :=
  ∀ index : Nat, place ≤ index →
    target.bytes.getD index 0 = 0

theorem magnitude_set
    {target : Target}
    {index : Nat}
    (hIndex : index < 32)
    (hBlank : target.bytes.getD index 0 = 0)
    (byte : UInt8) :
    magnitude (target.set index byte).bytes =
      magnitude target.bytes +
        byte.toNat * 256 ^ (31 - index) := by
  have hLength : index < target.bytes.length := by
    rw [target.size_eq]
    exact hIndex
  rw [List.getD_eq_getElem _ _ hLength] at hBlank
  rw [magnitude, Bytes32.set, List.map_set,
    Radix.value_set (by simpa using hLength)
      (by simp [hBlank]),
    List.length_map, target.size_eq, magnitude]

theorem placeMantissaByte_spec
    {mantissa : UInt32}
    {exponent offset : Nat}
    {target after : Target}
    (hBlank : BlankFrom (32 - exponent + offset) target)
    (hPlaced :
      placeMantissaByte mantissa (32 - (exponent : Int))
        target offset = some after) :
    BlankFrom (32 - exponent + (offset + 1 : Nat)) after ∧
      magnitude after.bytes * 256 ^ 3 =
        magnitude target.bytes * 256 ^ 3 +
          (mantissaByte mantissa offset).toNat *
            256 ^ (exponent + 2 - offset) := by
  unfold placeMantissaByte at hPlaced
  change
    (if 32 - (exponent : Int) + offset < 0 ∨
        32 - (exponent : Int) + offset ≥ 32 then
      if mantissaByte mantissa offset ≠ 0 then none
      else some target
    else
      some (target.set
        (32 - (exponent : Int) + offset).toNat
        (mantissaByte mantissa offset))) = some after
    at hPlaced
  split at hPlaced
  · split at hPlaced
    · cases hPlaced
    · rename_i hByte
      cases hPlaced
      rw [not_not] at hByte
      constructor
      · intro index hIndex
        exact hBlank index (by omega)
      · rw [hByte]
        simp
  · rename_i hInside
    cases hPlaced
    have hHere := hBlank
      (32 - (exponent : Int) + offset).toNat (by omega)
    constructor
    · intro index hIndex
      have hOther := hBlank index (by omega)
      rw [Bytes32.set, List.getD_eq_getElem?_getD,
        List.getElem?_set_ne (by omega),
        ← List.getD_eq_getElem?_getD]
      exact hOther
    · rw [magnitude_set (by omega) hHere, Nat.add_mul,
        Nat.mul_assoc, ← Nat.pow_add]
      congr 3
      omega

theorem mantissaByte_toNat
    (mantissa : UInt32)
    {offset : Nat}
    (hOffset : offset ≤ 2) :
    (mantissaByte mantissa offset).toNat =
      mantissa.toNat / 2 ^ (8 * (2 - offset)) % 256 := by
  rw [mantissaByte, UInt32.toNat_toUInt8,
    UInt32.toNat_shiftRight, UInt32.toNat_ofNat',
    Nat.shiftRight_eq_div_pow,
    Nat.mod_eq_of_lt
      (show 8 * (2 - offset) < 2 ^ 32 by omega),
    Nat.mod_eq_of_lt (show 8 * (2 - offset) < 32 by omega)]

theorem mantissa_bytes
    {mantissa : UInt32}
    (hMantissa : mantissa.toNat < 2 ^ 24) :
    (mantissaByte mantissa 0).toNat * 256 ^ 2 +
        (mantissaByte mantissa 1).toNat * 256 +
        (mantissaByte mantissa 2).toNat =
      mantissa.toNat := by
  rw [mantissaByte_toNat _ (by omega),
    mantissaByte_toNat _ (by omega),
    mantissaByte_toNat _ (by omega)]
  omega

/- What the three placements leave is the compact value. -/
theorem placed_value
    {mantissa : UInt32}
    (hMantissa : mantissa.toNat < 2 ^ 24)
    {exponent : Nat}
    {placed : Target}
    (hPlaced :
      [0, 1, 2].foldlM
          (placeMantissaByte mantissa (32 - (exponent : Int)))
          Bytes32.zero =
        some placed) :
    magnitude placed.bytes * 256 ^ 3 =
      mantissa.toNat * 256 ^ exponent := by
  simp only [List.foldlM_cons, List.foldlM_nil,
    Option.bind_eq_bind, Option.bind_eq_some_iff,
    Option.pure_def, Option.some.injEq] at hPlaced
  rcases hPlaced with
    ⟨first, hFirst, second, hSecond, third, hThird, rfl⟩
  have hEmpty : BlankFrom
      (32 - (exponent : Int) + (0 : Nat))
      Bytes32.zero := by
    intro index _
    rw [Bytes32.zero, List.getD_eq_getElem?_getD,
      List.getElem?_replicate]
    split
    · rfl
    · rfl
  rcases placeMantissaByte_spec hEmpty hFirst with
    ⟨hBlankFirst, hValueFirst⟩
  rcases placeMantissaByte_spec hBlankFirst
    hSecond with ⟨hBlankSecond, hValueSecond⟩
  rcases placeMantissaByte_spec hBlankSecond
    hThird with ⟨-, hValueThird⟩
  have hZero : magnitude Bytes32.zero.bytes = 0 := rfl
  rw [hValueThird, hValueSecond, hValueFirst, hZero,
    ← mantissa_bytes hMantissa]
  simp only [Nat.add_sub_cancel, Nat.sub_zero,
    show ∀ n, n + 2 - 1 = n + 1 from fun n => rfl]
  ring

theorem compactMantissa_eq
    (bits : UInt32) :
    (bits &&& 0x00FFFFFF).toNat = compactMantissa bits := by
  rw [UInt32.toNat_and]
  exact Nat.and_two_pow_sub_one_eq_mod bits.toNat 24

theorem compactExponent_eq
    (bits : UInt32) :
    (bits >>> 24).toNat = compactExponent bits := by
  rw [UInt32.toNat_shiftRight,
    show UInt32.toNat 24 % 32 = 24 from rfl,
    Nat.shiftRight_eq_div_pow, compactExponent]

theorem compactMantissa_lt
    (bits : UInt32) :
    compactMantissa bits < 2 ^ 24 :=
  Nat.mod_lt _ (by decide)

theorem compactToTarget_eq
    {bits : UInt32}
    {target : Target}
    (hTarget : compactToTarget bits = some target) :
    magnitude target.bytes * 256 ^ 3 =
        compactMantissa bits * 256 ^ compactExponent bits ∧
      targetToCompact target = bits := by
  unfold compactToTarget at hTarget
  dsimp only at hTarget
  rw [compactExponent_eq] at hTarget
  split at hTarget
  · cases hTarget
  split at hTarget
  · cases hTarget
  split at hTarget
  · cases hTarget
  rename_i placed hPlaced
  split at hTarget
  · cases hTarget
  rename_i hCanonical
  cases hTarget
  refine ⟨?_, not_not.mp hCanonical⟩
  have hMantissa := compactMantissa_eq bits
  have hSmall := compactMantissa_lt bits
  rw [← hMantissa] at hSmall ⊢
  exact placed_value hSmall hPlaced

/- Decoding a compact form never gives a greater target. -/
theorem magnitude_le_of_compact
    {target decoded : Target}
    (hDecoded :
      compactToTarget (targetToCompact target) =
        some decoded) :
    magnitude decoded.bytes ≤ magnitude target.bytes := by
  have hExact := (compactToTarget_eq hDecoded).1
  have hLe := targetToCompact_le target
  rw [← hExact] at hLe
  exact Nat.le_of_mul_le_mul_right hLe (by decide)

------------------------------------------------------------
-- Wide Values
------------------------------------------------------------

theorem magnitude_append
    (high low : ByteVec) :
    magnitude (high ++ low) =
      magnitude high * 256 ^ low.length + magnitude low := by
  induction high with
  | nil => simp [magnitude]
  | cons byte high ih =>
      rw [List.cons_append, magnitude_cons, magnitude_cons,
        ih, List.length_append, Nat.pow_add]
      ring

/- The bytes of a limb, most significant first. -/
def limbBytes
    (limb : UInt64) : ByteVec :=
  [(limb >>> 56).toUInt8, (limb >>> 48).toUInt8,
    (limb >>> 40).toUInt8, (limb >>> 32).toUInt8,
    (limb >>> 24).toUInt8, (limb >>> 16).toUInt8,
    (limb >>> 8).toUInt8, (limb >>> 0).toUInt8]

theorem magnitude_limbBytes
    (limb : UInt64) :
    magnitude (limbBytes limb) = limb.toNat := by
  have hLimb := limb.toNat_lt
  simp [limbBytes, magnitude, Radix.value_cons,
    Nat.shiftRight_eq_div_pow]
  omega

/- Bytes joined by shifts, least significant first. -/
theorem joinBytes_toNat
    (byte : Nat → UInt8)
    {count : Nat}
    (hCount : count ≤ 8) :
    ((List.range count).foldl
        (fun (word : UInt64) (index : Nat) =>
          word |||
            ((byte index).toUInt64 <<<
              UInt64.ofNat (index * 8)))
        0).toNat =
      magnitude ((List.range count).map byte).reverse := by
  induction count with
  | zero => rfl
  | succ count ih =>
      have hBelow := magnitude_lt
        ((List.range count).map byte).reverse
      have hByte := (byte count).toNat_lt
      rw [List.length_reverse, List.length_map,
        List.length_range, ← ih (by omega)] at hBelow
      rw [List.range_succ, List.foldl_append,
        List.map_append, List.reverse_append,
        List.foldl_cons, List.foldl_nil, List.map_singleton,
        List.reverse_singleton, List.singleton_append,
        magnitude_cons, ← ih (by omega), List.length_reverse,
        List.length_map, List.length_range]
      have hPower : (256 : Nat) ^ count = 2 ^ (count * 8) := by
        rw [Nat.mul_comm, Nat.pow_mul]
      rw [hPower] at hBelow ⊢
      have hRoom :
          (byte count).toNat * 2 ^ (count * 8) < 2 ^ 64 := by
        have hTop : 2 ^ (count * 8) ≤ 2 ^ 56 :=
          Nat.pow_le_pow_right (by decide) (by omega)
        have hProduct := Nat.mul_le_mul
          (Nat.le_of_lt_succ hByte) hTop
        omega
      rw [UInt64.toNat_or, UInt64.toNat_shiftLeft,
        UInt8.toNat_toUInt64, UInt64.toNat_ofNat',
        Nat.mod_eq_of_lt
          (show count * 8 < 2 ^ 64 by omega),
        Nat.mod_eq_of_lt (show count * 8 < 64 by omega),
        Nat.shiftLeft_eq, Nat.mod_eq_of_lt hRoom, Nat.or_comm,
        Nat.mul_comm, Nat.two_pow_add_eq_or_of_lt hBelow]

namespace Wide

/- The number that the limbs stand for. -/
def magnitude
    (value : Wide) : Nat :=
  Radix.value (2 ^ 64)
    (value.limbs.reverse.map UInt64.toNat)

theorem magnitude_eq
    (value : Wide) :
    value.magnitude =
      (((((value.limb 4).toNat * 2 ^ 64 +
                  (value.limb 3).toNat) * 2 ^ 64 +
              (value.limb 2).toNat) * 2 ^ 64 +
          (value.limb 1).toNat) * 2 ^ 64 +
        (value.limb 0).toNat) := by
  rcases value with ⟨limbs, hSize⟩
  match limbs, hSize with
  | [a, b, d, e, f], _ =>
      simp [magnitude, limb, Radix.value_cons]
      omega

theorem exceedsLimbs_iff
    {first second : List UInt64}
    (hLength : first.length = second.length) :
    exceedsLimbs first second = true ↔
      Radix.value (2 ^ 64) (second.map UInt64.toNat) <
        Radix.value (2 ^ 64) (first.map UInt64.toNat) := by
  have hDigits :
      ∀ limbs : List UInt64,
        ∀ digit ∈ limbs.map UInt64.toNat,
          digit < 2 ^ 64 := by
    intro limbs digit hDigit
    rcases List.mem_map.mp hDigit with ⟨limb, -, rfl⟩
    exact limb.toNat_lt
  induction first generalizing second with
  | nil =>
      rw [List.eq_nil_of_length_eq_zero hLength.symm]
      simp [exceedsLimbs]
  | cons limb limbs ih =>
      cases second with
      | nil => cases hLength
      | cons other others =>
          have hRest := Nat.succ.inj hLength
          rw [List.map_cons, List.map_cons,
            Radix.value_cons_lt (hDigits _) (hDigits _)
              (by simpa using hRest.symm)]
          unfold exceedsLimbs
          by_cases hSame : limb = other
          · subst hSame
            rw [if_neg (not_not.mpr rfl)]
            refine (ih hRest).trans ?_
            simp
          · have hNe : other.toNat ≠ limb.toNat :=
              fun hEq => hSame (UInt64.toNat_inj.mp hEq.symm)
            rw [if_pos hSame, decide_eq_true_eq, gt_iff_lt,
              UInt64.lt_iff_toNat_lt]
            simp [hNe]

theorem exceeds_iff
    {value limit : Wide} :
    value.exceeds limit = true ↔
      limit.magnitude < value.magnitude := by
  apply exceedsLimbs_iff
  rw [List.length_reverse, List.length_reverse,
    value.size_eq, limit.size_eq]

/- Thirty-two bytes, written out place by place. -/
theorem bytes_eq
    (target : Target) :
    target.bytes =
      (List.range 32).map fun index =>
        target.bytes.getD index 0 := by
  apply List.ext_getElem
  · rw [target.size_eq, List.length_map, List.length_range]
  · intro index hIndex _
    rw [List.getElem_map, List.getElem_range,
      List.getD_eq_getElem _ _ hIndex]

/- Eight bytes of a target, counted from its end. -/
def targetBytes
    (target : Target)
    (index : Nat) : ByteVec :=
  ((List.range 8).map fun byte =>
    target.bytes.getD (31 - (index * 8 + byte)) 0).reverse

theorem limb_fromTarget
    (target : Target)
    {index : Nat}
    (hIndex : index < 4) :
    ((fromTarget target).limb index).toNat =
      Amarian.magnitude (targetBytes target index) := by
  have hJoined := joinBytes_toNat
    (fun byte =>
      target.bytes.getD (31 - (index * 8 + byte)) 0)
    (Nat.le_refl 8)
  rw [targetBytes, ← hJoined, fromTarget, ofFn, limb,
    List.getD_eq_getElem?_getD, List.getElem?_map,
    List.getElem?_range (by omega)]
  simp [hIndex]

theorem magnitude_fromTarget
    (target : Target) :
    (fromTarget target).magnitude =
      Amarian.magnitude target.bytes := by
  have hBytes :
      target.bytes =
        targetBytes target 3 ++ targetBytes target 2 ++
          targetBytes target 1 ++ targetBytes target 0 :=
    (bytes_eq target).trans rfl
  have hTop : (fromTarget target).limb 4 = 0 := rfl
  have hLength :
      ∀ index, (targetBytes target index).length = 8 := by
    intro index
    simp [targetBytes]
  rw [hBytes, magnitude_append, magnitude_append,
    magnitude_append, hLength, hLength, hLength,
    magnitude_eq, hTop, limb_fromTarget target (by decide),
    limb_fromTarget target (by decide),
    limb_fromTarget target (by decide),
    limb_fromTarget target (by decide)]
  simp

theorem magnitude_toTarget
    {value : Wide}
    (hTop : value.limb 4 = 0) :
    Amarian.magnitude value.toTarget.bytes =
      value.magnitude := by
  have hBytes :
      value.toTarget.bytes =
        limbBytes (value.limb 3) ++
          limbBytes (value.limb 2) ++
          limbBytes (value.limb 1) ++
          limbBytes (value.limb 0) :=
    rfl
  have hLength : ∀ limb, (limbBytes limb).length = 8 :=
    fun _ => rfl
  rw [hBytes, magnitude_append, magnitude_append,
    magnitude_append, hLength, hLength, hLength,
    magnitude_limbBytes, magnitude_limbBytes,
    magnitude_limbBytes, magnitude_limbBytes, magnitude_eq,
    hTop]
  simp

end Wide

------------------------------------------------------------
-- The Floor
------------------------------------------------------------

/- A target that a network's floor admits. -/
def Within
    (floor : Target)
    (bits : UInt32) : Prop :=
  ∀ target, compactToTarget bits = some target →
    magnitude target.bytes ≤ magnitude floor.bytes

theorem Within.ite
    {floor : Target}
    {condition : Prop}
    [Decidable condition]
    {yes no : UInt32}
    (hYes : condition → Within floor yes)
    (hNo : ¬condition → Within floor no) :
    Within floor (if condition then yes else no) := by
  split
  · exact hYes ‹_›
  · exact hNo ‹_›

theorem within_encoded
    {floor : Target}
    {value : Wide}
    (hValue : value.exceeds (.fromTarget floor) = false) :
    Within floor (targetToCompact value.toTarget) := by
  intro target hTarget
  have hLe : value.magnitude ≤ magnitude floor.bytes := by
    rw [← Wide.magnitude_fromTarget]
    apply Nat.le_of_not_lt
    intro hLess
    rw [Wide.exceeds_iff.mpr hLess] at hValue
    cases hValue
  have hTop : value.limb 4 = 0 := by
    have hFloor := magnitude_lt floor.bytes
    rw [floor.size_eq] at hFloor
    rw [Wide.magnitude_eq] at hLe
    apply UInt64.toNat_inj.mp
    change (value.limb 4).toNat = 0
    omega
  rw [← Wide.magnitude_toTarget hTop] at hLe
  exact Nat.le_trans (magnitude_le_of_compact hTarget) hLe

theorem within_floor
    (floor : Target) :
    Within floor
      (targetToCompact (Wide.fromTarget floor).toTarget) := by
  apply within_encoded
  rw [Bool.eq_false_iff]
  intro hExceeds
  exact Nat.lt_irrefl _ (Wide.exceeds_iff.mp hExceeds)

theorem within_clampTarget
    {floor : Target}
    (hFloor : 0 < magnitude floor.bytes)
    (value : Wide) :
    Within floor (clampTarget value (.fromTarget floor)) := by
  unfold clampTarget
  split
  · intro target hTarget
    have hOne := magnitude_le_of_compact hTarget
    have hLeast :
        magnitude (Bytes32.zero.set 31 1).bytes = 1 :=
      rfl
    omega
  · split
    · exact within_floor floor
    · rename_i hExceeds
      exact within_encoded (Bool.eq_false_iff.mpr hExceeds)

theorem magnitude_pos
    {bits : UInt32}
    {target : Target}
    (hTarget : compactToTarget bits = some target) :
    0 < magnitude target.bytes := by
  have hExact := (compactToTarget_eq hTarget).1
  have hMantissa : compactMantissa bits ≠ 0 := by
    intro hZero
    have hBits : bits &&& 0x00FFFFFF = 0 := by
      apply UInt32.toNat_inj.mp
      rw [UInt32.toNat_and]
      exact (Nat.and_two_pow_sub_one_eq_mod bits.toNat
        24).trans hZero
    unfold compactToTarget at hTarget
    simp [hBits] at hTarget
  have hRight :
      0 < compactMantissa bits * 256 ^ compactExponent bits :=
    Nat.mul_pos (Nat.pos_of_ne_zero hMantissa)
      (Nat.pow_pos (by decide))
  rw [← hExact] at hRight
  exact Nat.pos_of_mul_pos_right hRight

/- The rule never asks for less than the floor does. -/
theorem asertNextBits_within
    {powLimitBits : UInt32}
    {floor : Target}
    (hFloor : compactToTarget powLimitBits = some floor)
    (anchorBits : UInt32)
    (anchorTime heightDelta tipTime spacingSeconds
      halfLifeSeconds : Int64) :
    Within floor
      (asertNextBits anchorBits anchorTime heightDelta tipTime
        spacingSeconds halfLifeSeconds powLimitBits) := by
  have hPos := magnitude_pos hFloor
  unfold asertNextBits
  rw [hFloor]
  cases compactToTarget anchorBits with
  | none =>
      intro target hTarget
      rw [hFloor] at hTarget
      cases hTarget
      exact Nat.le_refl _
  | some anchor =>
      have hStart :
          ∀ value : Wide,
            (if value.exceeds (.fromTarget floor) = true then
                Wide.fromTarget floor
              else
                value).exceeds (.fromTarget floor) = false := by
        intro value
        rw [Bool.eq_false_iff]
        split
        · intro hExceeds
          exact Nat.lt_irrefl _
            (Wide.exceeds_iff.mp hExceeds)
        · assumption
      refine .ite (fun _ => within_encoded (hStart _)) ?_
      intro _
      refine .ite (fun _ => ?_) fun _ => ?_
      · exact .ite (fun _ => within_floor floor)
          fun _ => within_clampTarget hPos _
      · exact .ite (fun _ => within_clampTarget hPos _)
          fun _ => within_clampTarget hPos _

------------------------------------------------------------
-- Work
------------------------------------------------------------

theorem magnitude_reverse_cons
    (byte : UInt8)
    (bytes : ByteVec) :
    magnitude (byte :: bytes).reverse =
      byte.toNat + 256 * magnitude bytes.reverse := by
  unfold magnitude Radix.value
  simp [Nat.ofDigits_cons]

/- A sum with its carry is worth what was added. -/
theorem addLE_value
    {first second : ByteVec}
    (hLength : first.length = second.length)
    (carry : Nat) :
    (addLE carry first second).1.length = first.length ∧
      magnitude (addLE carry first second).1.reverse +
          (addLE carry first second).2 *
            256 ^ first.length =
        magnitude first.reverse + magnitude second.reverse +
          carry := by
  induction first generalizing second carry with
  | nil =>
      rcases List.length_eq_zero_iff.mp hLength.symm with rfl
      simp [addLE, magnitude]
  | cons a as ih =>
      cases second with
      | nil => cases hLength
      | cons b bs =>
          rcases ih (Nat.succ.inj hLength)
            ((a.toNat + b.toNat + carry) / 256) with
            ⟨hSize, hSum⟩
          rw [addLE]
          simp only [List.length_cons, hSize, true_and]
          have hDigit :=
            Nat.mod_add_div (a.toNat + b.toNat + carry) 256
          have hPlace : ∀ higher : Nat,
              higher * 256 ^ (as.length + 1) =
                256 * (higher * 256 ^ as.length) := by
            intro higher
            ring
          rw [magnitude_reverse_cons, magnitude_reverse_cons,
            magnitude_reverse_cons, UInt8.toNat_ofNat',
            hPlace]
          change (_ % 256) + _ + _ = _
          omega

/- The amount of work as a number. -/
def Work.amount
    (work : Work) : Nat :=
  magnitude work.bytes.bytes

/- Totals stop growing at the greatest 256-bit number. -/
theorem Work.amount_add
    (first second : Work) :
    (first.add second).amount =
      min (first.amount + second.amount) (2 ^ 256 - 1) := by
  have hReversed :
      first.bytes.bytes.reverse.length =
        second.bytes.bytes.reverse.length := by
    simp [Bytes32.size_eq]
  rcases addLE_value hReversed 0 with
    ⟨hSize, hSum⟩
  rw [List.reverse_reverse, List.reverse_reverse,
    List.length_reverse, first.bytes.size_eq] at hSum
  rw [List.length_reverse, first.bytes.size_eq] at hSize
  unfold Work.add Work.amount
  dsimp only
  generalize hAdded : addLE 0 first.bytes.bytes.reverse
    second.bytes.bytes.reverse = added at hSize hSum ⊢
  rcases added with ⟨sum, carry⟩
  dsimp only at hSize hSum ⊢
  have hLess := magnitude_lt sum.reverse
  rw [List.length_reverse, hSize] at hLess
  split
  · rename_i hCarry
    have hFull :
        magnitude (List.replicate 32 0xFF) =
          2 ^ 256 - 1 := by
      rfl
    have hLeast := Nat.mul_le_mul_right (256 ^ 32)
      (Nat.one_le_iff_ne_zero.mpr hCarry)
    change magnitude (List.replicate 32 0xFF) = _
    rw [hFull]
    omega
  · rename_i hNone
    rw [not_not] at hNone
    have hBytes :
        (Bytes32.ofList sum.reverse).bytes = sum.reverse := by
      have hReverse : sum.reverse.length = 32 := by
        rw [List.length_reverse, hSize]
      change (sum.reverse ++ List.replicate 32 0).take 32 = _
      rw [List.take_append_of_le_length
        (Nat.le_of_eq hReverse.symm), List.take_of_length_le
        (Nat.le_of_eq hReverse)]
    rw [hBytes]
    rw [hNone, Nat.zero_mul] at hSum
    omega

theorem Work.amount_one :
    Work.one.amount = 1 := by
  rfl

/- A target that decodes asks for some work. -/
theorem Work.amount_ofCompactTarget_pos
    {bits : UInt32}
    {target : Target}
    (hTarget : compactToTarget bits = some target) :
    0 < (Work.ofCompactTarget bits).amount := by
  have hNonzero : target ≠ Bytes32.zero := by
    rintro rfl
    have hPos := magnitude_pos hTarget
    revert hPos
    decide
  unfold Work.ofCompactTarget
  rw [hTarget]
  dsimp only
  unfold Work.ofTarget
  rw [if_neg hNonzero]
  dsimp only
  split
  · rw [Work.amount_one]
    exact Nat.one_pos
  · rw [Work.amount_add, Work.amount_one]
    omega

theorem Work.less_iff
    {first second : Work} :
    first.less second = true ↔
      first.amount < second.amount :=
  bytesLess_iff
    (first.bytes.size_eq.trans second.bytes.size_eq.symm)

end Amarian
