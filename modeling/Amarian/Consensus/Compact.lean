import Amarian.Consensus.Magnitude
import Mathlib.Data.Nat.Log

/-
  The compact codec.

  The compact form of a number keeps its leading bits down to
  a whole byte: the number is rounded down to a multiple of a
  power of 256 that its size alone decides.  Rounding keeps
  the size, so it is monotone and nothing is lost the second
  time, and the decoder gives the rounded number back.

  Key definitions include:
    * `compactSize`
    * `compactFloor`

  Key theorems include:
    * `compactFloor_mono`
    * `compactToTarget_targetToCompact`
    * `compact_codec`
-/

------------------------------------------------------------
-- Sizes
------------------------------------------------------------

namespace Amarian

/- Bytes that hold a number below a bit kept free. -/
def compactSize
    (value : Nat) : Nat :=
  (value.log2 + 1) / 8 + 1

theorem compactSize_pos
    (value : Nat) :
    0 < compactSize value :=
  Nat.succ_pos _

theorem compactSize_eq
    {value size : Nat}
    (hSize : 0 < size)
    (hLow : 2 ^ (8 * (size - 1) - 1) ≤ value)
    (hHigh : value < 2 ^ (8 * size - 1)) :
    compactSize value = size := by
  have hPos : value ≠ 0 := by
    have := Nat.two_pow_pos (8 * (size - 1) - 1)
    omega
  have hAtLeast := (Nat.le_log2 hPos).mpr hLow
  have hBelow := (Nat.log2_lt hPos).mpr hHigh
  unfold compactSize
  omega

theorem le_of_compactSize
    {value : Nat}
    (hPos : 0 < value) :
    2 ^ (8 * (compactSize value - 1) - 1) ≤ value := by
  apply (Nat.le_log2 (by omega)).mp
  unfold compactSize
  omega

theorem lt_of_compactSize
    {value : Nat}
    (hPos : 0 < value) :
    value < 2 ^ (8 * compactSize value - 1) := by
  apply (Nat.log2_lt (by omega)).mp
  unfold compactSize
  omega

theorem compactSize_mono
    {first second : Nat}
    (hPos : 0 < first)
    (hLe : first ≤ second) :
    compactSize first ≤ compactSize second := by
  have hLog : first.log2 ≤ second.log2 :=
    (Nat.le_log2 (by omega)).mpr
      (Nat.le_trans (Nat.log2_self_le (by omega)) hLe)
  unfold compactSize
  omega

------------------------------------------------------------
-- Rounding
------------------------------------------------------------

/- What is left of a number in three bytes of its size. -/
def compactFloor
    (value : Nat) : Nat :=
  value / 256 ^ (compactSize value - 3) *
    256 ^ (compactSize value - 3)

theorem compactFloor_le
    (value : Nat) :
    compactFloor value ≤ value :=
  Nat.div_mul_le_self ..

/- The lower end of every size is a multiple of its places. -/
theorem le_compactFloor
    {value : Nat}
    (hPos : 0 < value) :
    2 ^ (8 * (compactSize value - 1) - 1) ≤
      compactFloor value := by
  have hLow := le_of_compactSize hPos
  unfold compactFloor
  generalize compactSize value = size at hLow ⊢
  by_cases hSmall : size < 3
  · rw [show size - 3 = 0 by omega]
    simpa using hLow
  · have hSplit :
        2 ^ (8 * (size - 1) - 1) =
          2 ^ 15 * 256 ^ (size - 3) := by
      rw [show (256 : Nat) = 2 ^ 8 from rfl, ← Nat.pow_mul,
        ← Nat.pow_add]
      congr 1
      omega
    rw [hSplit] at hLow ⊢
    exact Nat.mul_le_mul_right _
      ((Nat.le_div_iff_mul_le
        (Nat.pow_pos (by decide))).mpr hLow)

theorem compactFloor_pos
    {value : Nat}
    (hPos : 0 < value) :
    0 < compactFloor value :=
  Nat.lt_of_lt_of_le (Nat.two_pow_pos _)
    (le_compactFloor hPos)

theorem compactSize_compactFloor
    {value : Nat}
    (hPos : 0 < value) :
    compactSize (compactFloor value) = compactSize value :=
  compactSize_eq (compactSize_pos _) (le_compactFloor hPos)
    (Nat.lt_of_le_of_lt (compactFloor_le value)
      (lt_of_compactSize hPos))

theorem compactFloor_idem
    {value : Nat}
    (hPos : 0 < value) :
    compactFloor (compactFloor value) =
      compactFloor value := by
  have hSize := compactSize_compactFloor hPos
  calc compactFloor (compactFloor value)
      = compactFloor value / 256 ^ (compactSize value - 3) *
          256 ^ (compactSize value - 3) := by
        rw [compactFloor, hSize]
    _ = compactFloor value :=
        Nat.div_mul_cancel (Nat.dvd_mul_left ..)

theorem compactFloor_mono
    {first second : Nat}
    (hPos : 0 < first)
    (hLe : first ≤ second) :
    compactFloor first ≤ compactFloor second := by
  rcases Nat.eq_or_lt_of_le
    (compactSize_mono hPos hLe) with hSame | hLess
  · unfold compactFloor
    rw [hSame]
    exact Nat.mul_le_mul_right _
      (Nat.div_le_div_right hLe)
  · -- sizes apart: a power of two lies between the numbers
    have hBetween :
        2 ^ (8 * compactSize first - 1) ≤
          2 ^ (8 * (compactSize second - 1) - 1) :=
      Nat.pow_le_pow_right (by decide) (by omega)
    calc compactFloor first
        ≤ first := compactFloor_le first
      _ ≤ 2 ^ (8 * compactSize first - 1) :=
          Nat.le_of_lt (lt_of_compactSize hPos)
      _ ≤ 2 ^ (8 * (compactSize second - 1) - 1) := hBetween
      _ ≤ compactFloor second :=
          le_compactFloor (Nat.lt_of_lt_of_le hPos hLe)

/- The three bytes themselves. -/
def compactDigits
    (value : Nat) : Nat :=
  value * 256 ^ 3 / 256 ^ compactSize value

theorem compactDigits_mul
    (value : Nat) :
    compactDigits value * 256 ^ compactSize value =
      compactFloor value * 256 ^ 3 := by
  unfold compactDigits compactFloor
  generalize compactSize value = size
  by_cases hSmall : size < 3
  · rw [show size - 3 = 0 by omega, Nat.pow_zero,
      Nat.div_one, Nat.mul_one]
    exact Nat.div_mul_cancel
      (Nat.dvd_mul_left_of_dvd
        (Nat.pow_dvd_pow 256 (by omega)) value)
  · have hSplit : 256 ^ size = 256 ^ (size - 3) * 256 ^ 3 := by
      rw [← Nat.pow_add]
      congr 1
      omega
    rw [hSplit, Nat.mul_div_mul_right _ _ (by decide),
      Nat.mul_assoc]

theorem compactDigits_lt
    {value : Nat}
    (hPos : 0 < value) :
    compactDigits value < 2 ^ 23 := by
  have hHigh := lt_of_compactSize hPos
  have hSize := compactSize_pos value
  unfold compactDigits
  generalize compactSize value = size at hHigh hSize ⊢
  rw [Nat.div_lt_iff_lt_mul (Nat.pow_pos (by decide))]
  calc value * 256 ^ 3
      < 2 ^ (8 * size - 1) * 256 ^ 3 :=
        Nat.mul_lt_mul_of_pos_right hHigh (by decide)
    _ = 2 ^ 23 * 256 ^ size := by
        rw [show (256 : Nat) = 2 ^ 8 from rfl, ← Nat.pow_mul,
          ← Nat.pow_mul, ← Nat.pow_add, ← Nat.pow_add]
        congr 1
        omega

theorem compactDigits_pos
    {value : Nat}
    (hPos : 0 < value) :
    0 < compactDigits value := by
  have hProduct := compactDigits_mul value
  have hFloor := Nat.mul_pos (compactFloor_pos hPos)
    (show 0 < 256 ^ 3 by decide)
  rw [← hProduct] at hFloor
  exact Nat.pos_of_mul_pos_right hFloor

------------------------------------------------------------
-- Encoding
------------------------------------------------------------

theorem compact_ext
    {first second : UInt32}
    (hExponent :
      compactExponent first = compactExponent second)
    (hMantissa :
      compactMantissa first = compactMantissa second) :
    first = second := by
  apply UInt32.toNat_inj.mp
  unfold compactExponent at hExponent
  unfold compactMantissa at hMantissa
  omega

/- Without leading zeros the length bounds the number. -/
theorem le_magnitude
    {byte : UInt8}
    (hByte : byte ≠ 0)
    (bytes : ByteVec) :
    256 ^ bytes.length ≤ magnitude (byte :: bytes) := by
  have hPos : byte.toNat ≠ 0 :=
    fun hZero => hByte (UInt8.toNat_inj.mp hZero)
  rw [magnitude_cons]
  have hPlace := Nat.mul_le_mul_right (256 ^ bytes.length)
    (Nat.one_le_iff_ne_zero.mpr hPos)
  omega

theorem leading_lt_iff
    (bytes : ByteVec)
    (hSome : bytes ≠ []) :
    leading bytes < 2 ^ 23 ↔
      magnitude bytes < 2 ^ (8 * bytes.length - 1) := by
  have hLong := List.length_pos_of_ne_nil hSome
  rw [leading_eq,
    Nat.div_lt_iff_lt_mul (Nat.pow_pos (by decide))]
  have hPlaces :
      2 ^ 23 * 256 ^ bytes.length =
        2 ^ (8 * bytes.length - 1) * 256 ^ 3 := by
    rw [show (256 : Nat) = 2 ^ 8 from rfl, ← Nat.pow_mul,
      ← Nat.pow_mul, ← Nat.pow_add, ← Nat.pow_add]
    congr 1
    omega
  rw [hPlaces]
  exact Nat.mul_lt_mul_right (by decide)

/- The encoder writes the size and the leading digits. -/
theorem targetToCompact_spec
    {target : Target}
    (hPos : 0 < magnitude target.bytes) :
    compactExponent (targetToCompact target) =
        compactSize (magnitude target.bytes) ∧
      compactMantissa (targetToCompact target) =
        compactDigits (magnitude target.bytes) := by
  generalize hRest :
    target.bytes.dropWhile (· == 0) = rest
  have hSome : rest ≠ [] := by
    rintro rfl
    rw [magnitude_eq_zero hRest] at hPos
    exact Nat.lt_irrefl 0 hPos
  have hFirst : 256 ^ (rest.length - 1) ≤ magnitude rest := by
    have hHead := List.head_dropWhile_not (· == 0)
      (l := target.bytes) (hRest ▸ hSome)
    cases rest with
    | nil => exact absurd rfl hSome
    | cons byte rest =>
        simp only [hRest, List.head_cons] at hHead
        exact le_magnitude (by simpa using hHead) rest
  have hBelow := magnitude_lt rest
  have hLong := List.length_pos_of_ne_nil hSome
  have hLeading := leading_lt_iff rest hSome
  rw [← magnitude_dropWhile target.bytes, hRest]
  have hBytes : ∀ count, 256 ^ count = 2 ^ (8 * count) :=
    fun count => (Nat.pow_mul 2 8 count).symm
  rcases targetToCompact_parts hRest hSome with
    ⟨hSmall, hExponent, hMantissa⟩ |
    ⟨hLarge, hExponent, hMantissa⟩
  · have hSize : compactSize (magnitude rest) = rest.length := by
      apply compactSize_eq hLong
      · refine Nat.le_trans ?_ hFirst
        rw [hBytes]
        exact Nat.pow_le_pow_right (by decide) (by omega)
      · exact hLeading.mp hSmall
    rw [hExponent, hMantissa, compactDigits, hSize,
      leading_eq]
    exact ⟨rfl, rfl⟩
  · have hSize :
        compactSize (magnitude rest) = rest.length + 1 := by
      apply compactSize_eq (Nat.succ_pos _)
      · exact Nat.le_of_not_lt
          fun hLess => Nat.not_lt.mpr hLarge
            (hLeading.mpr hLess)
      · refine Nat.lt_of_lt_of_le hBelow ?_
        rw [hBytes]
        exact Nat.pow_le_pow_right (by decide) (by omega)
    rw [hExponent, hMantissa, compactDigits, hSize,
      leading_eq, Nat.div_div_eq_div_mul, Nat.pow_succ]
    exact ⟨rfl, rfl⟩

------------------------------------------------------------
-- Decoding
------------------------------------------------------------

theorem placeMantissaByte_some
    {mantissa : UInt32}
    {mostSignificant : Int}
    {offset : Nat}
    (hOutside :
      mostSignificant + offset < 0 ∨
          mostSignificant + offset ≥ 32 →
        (mantissaByte mantissa offset).toNat = 0)
    (target : Target) :
    ∃ after,
      placeMantissaByte mantissa mostSignificant target
        offset = some after := by
  change ∃ after,
    (if mostSignificant + offset < 0 ∨
        mostSignificant + offset ≥ 32 then
      if mantissaByte mantissa offset ≠ 0 then none
      else some target
    else
      some (target.set (mostSignificant + offset).toNat
        (mantissaByte mantissa offset))) = some after
  split
  · rename_i hOut
    have hByte : mantissaByte mantissa offset = 0 :=
      UInt8.toNat_inj.mp (hOutside hOut)
    rw [if_neg (not_not.mpr hByte)]
    exact ⟨target, rfl⟩
  · exact ⟨_, rfl⟩

/- The digits of a number below `2^256` fit their array. -/
theorem placed_exists
    {value : Nat}
    (hPos : 0 < value)
    (hValue : value < 256 ^ 32)
    {mantissa : UInt32}
    (hMantissa : mantissa.toNat = compactDigits value) :
    ∃ placed,
      [0, 1, 2].foldlM
          (placeMantissaByte mantissa
            (32 - (compactSize value : Int)))
          Bytes32.zero =
        some placed := by
  have hDigits := compactDigits_mul value
  have hFloor := compactFloor_le value
  have hSize : compactSize value ≤ 33 := by
    have hLog : value.log2 < 256 :=
      (Nat.log2_lt (by omega)).mpr hValue
    unfold compactSize
    omega
  have hOutside :
      ∀ offset : Nat, offset ≤ 2 →
        32 - (compactSize value : Int) + offset < 0 ∨
            32 - (compactSize value : Int) + offset ≥ 32 →
          (mantissaByte mantissa offset).toNat = 0 := by
    intro offset hOffset hOut
    rw [mantissaByte_toNat _ hOffset, hMantissa]
    have hAt := compactSize_pos value
    generalize compactDigits value = digits at hDigits ⊢
    generalize compactFloor value = rounded
      at hDigits hFloor
    rcases hOut with hAbove | hBelow
    · -- only the first byte of the longest size lies above
      have hTop : compactSize value = 33 := by omega
      have hZero : offset = 0 := by omega
      subst hZero
      rw [hTop] at hDigits
      omega
    · have hShort : compactSize value = 1 ∨
          compactSize value = 2 := by omega
      have hPlace : offset = 1 ∨ offset = 2 := by omega
      rcases hShort with hSame | hSame <;>
        rcases hPlace with rfl | rfl <;>
        rw [hSame] at hDigits hBelow <;>
        omega
  rcases placeMantissaByte_some (hOutside 0 (by omega))
    Bytes32.zero with ⟨first, hFirst⟩
  rcases placeMantissaByte_some (hOutside 1 (by omega))
    first with ⟨second, hSecond⟩
  rcases placeMantissaByte_some (hOutside 2 (by omega))
    second with ⟨third, hThird⟩
  refine ⟨third, ?_⟩
  simp only [List.foldlM_cons, List.foldlM_nil, hFirst,
    hSecond, hThird, Option.bind_eq_bind, Option.bind_some,
    Option.pure_def]

/- Decoding gives the rounded number back. -/
theorem compactToTarget_targetToCompact
    {target : Target}
    (hPos : 0 < magnitude target.bytes) :
    ∃ decoded,
      compactToTarget (targetToCompact target) =
          some decoded ∧
        magnitude decoded.bytes =
          compactFloor (magnitude target.bytes) := by
  rcases targetToCompact_spec hPos with
    ⟨hExponent, hDigits⟩
  have hBelow := magnitude_lt target.bytes
  rw [target.size_eq] at hBelow
  have hMantissa :=
    compactMantissa_eq (targetToCompact target)
  rw [hDigits] at hMantissa
  have hLess := compactDigits_lt hPos
  have hMore := compactDigits_pos hPos
  rcases placed_exists hPos hBelow hMantissa with
    ⟨placed, hPlaced⟩
  have hValue := placed_value (by omega) hPlaced
  rw [hMantissa, compactDigits_mul] at hValue
  have hSame := Nat.eq_of_mul_eq_mul_right (by decide) hValue
  have hAgain : targetToCompact placed =
      targetToCompact target := by
    have hPlacedPos : 0 < magnitude placed.bytes := by
      rw [hSame]
      exact compactFloor_pos hPos
    rcases targetToCompact_spec hPlacedPos with
      ⟨hPlacedExponent, hPlacedDigits⟩
    have hSize := compactSize_compactFloor hPos
    apply compact_ext
    · rw [hPlacedExponent, hExponent, hSame, hSize]
    · have hFirst := compactDigits_mul
        (compactFloor (magnitude target.bytes))
      rw [compactFloor_idem hPos, hSize,
        ← compactDigits_mul] at hFirst
      rw [hPlacedDigits, hDigits, hSame]
      exact Nat.eq_of_mul_eq_mul_right
        (Nat.pow_pos (by decide)) hFirst
  refine ⟨placed, ?_, hSame⟩
  unfold compactToTarget
  dsimp only
  rw [compactExponent_eq, hExponent]
  rw [if_neg, if_neg, hPlaced]
  · dsimp only
    rw [if_neg (not_not.mpr hAgain)]
  · intro hZero
    rw [hZero] at hMantissa
    change 0 = _ at hMantissa
    omega
  · rw [mantissaSignBit_iff (by omega)]
    omega

------------------------------------------------------------
-- The Codec
------------------------------------------------------------

theorem magnitude_inj
    {first second : Target}
    (hSame :
      magnitude first.bytes = magnitude second.bytes) :
    first = second := by
  have hDigits := Nat.ofDigits_inj_of_len_eq
    (show 1 < 256 by decide)
    (by simp [Bytes32.size_eq])
    (fun digit hDigit => digits_lt first.bytes digit
      (List.mem_reverse.mp hDigit))
    (fun digit hDigit => digits_lt second.bytes digit
      (List.mem_reverse.mp hDigit)) hSame
  rw [List.reverse_inj,
    List.map_inj_right fun _ _ => UInt8.toNat_inj.mp]
    at hDigits
  exact Bytes32.ext hDigits

theorem magnitude_pos_iff
    {target : Target} :
    0 < magnitude target.bytes ↔ target ≠ Bytes32.zero := by
  constructor
  · rintro hPos rfl
    exact Nat.lt_irrefl 0 hPos
  · intro hTarget
    apply Nat.pos_of_ne_zero
    intro hZero
    apply hTarget
    exact magnitude_inj hZero

theorem compactToTarget_exists
    {target : Target}
    (hTarget : target ≠ Bytes32.zero) :
    ∃ decoded,
      compactToTarget (targetToCompact target) =
          some decoded ∧
        magnitude decoded.bytes =
          compactFloor (magnitude target.bytes) :=
  compactToTarget_targetToCompact
    (magnitude_pos_iff.mpr hTarget)

/-
  One encoding for each decodable target.  Encoding rounds
  down, leaves a decoded target alone and keeps the order.
-/
theorem compact_codec :
    (∀ bits : UInt32,
      ((compactToTarget bits).isSome = true ↔
        ∃ target : Target,
          target ≠ Bytes32.zero ∧
            bits = targetToCompact target)) ∧
      (∀ (bits : UInt32) (target : Target),
        compactToTarget bits = some target →
          targetToCompact target = bits) ∧
      (∀ target : Target,
        target ≠ Bytes32.zero →
          ∃ decoded,
            compactToTarget (targetToCompact target) =
                some decoded ∧
              magnitude decoded.bytes ≤
                magnitude target.bytes ∧
              ((∃ bits,
                  compactToTarget bits = some target) →
                decoded = target)) ∧
      (∀ first second firstImage secondImage : Target,
        compactToTarget (targetToCompact first) =
            some firstImage →
          compactToTarget (targetToCompact second) =
              some secondImage →
            magnitude first.bytes ≤
                magnitude second.bytes →
              magnitude firstImage.bytes ≤
                magnitude secondImage.bytes) := by
  have hNonzero : ∀ {bits : UInt32} {target : Target},
      compactToTarget bits = some target →
        target ≠ Bytes32.zero :=
    fun hTarget => magnitude_pos_iff.mp (magnitude_pos hTarget)
  refine ⟨?_, ?_, ?_, ?_⟩
  · intro bits
    constructor
    · intro hSome
      rcases Option.isSome_iff_exists.mp hSome with
        ⟨target, hTarget⟩
      exact ⟨target, hNonzero hTarget,
        (compactToTarget_eq hTarget).2.symm⟩
    · rintro ⟨target, hTarget, rfl⟩
      rcases compactToTarget_exists hTarget with
        ⟨decoded, hDecoded, -⟩
      rw [hDecoded]
      rfl
  · intro bits target hTarget
    exact (compactToTarget_eq hTarget).2
  · intro target hTarget
    rcases compactToTarget_exists hTarget with
      ⟨decoded, hDecoded, hValue⟩
    refine ⟨decoded, hDecoded, ?_, ?_⟩
    · rw [hValue]
      exact compactFloor_le _
    · rintro ⟨bits, hBits⟩
      rw [(compactToTarget_eq hBits).2, hBits] at hDecoded
      exact (Option.some.inj hDecoded).symm
  · intro first second firstImage secondImage
      hFirst hSecond hLe
    have hValue : ∀ {target image : Target},
        compactToTarget (targetToCompact target) =
            some image →
          0 < magnitude target.bytes ∧
            magnitude image.bytes =
              compactFloor (magnitude target.bytes) := by
      intro target image hImage
      have hPos := Nat.lt_of_lt_of_le (magnitude_pos hImage)
        (magnitude_le_of_compact hImage)
      rcases compactToTarget_targetToCompact hPos with
        ⟨decoded, hDecoded, hDecodedValue⟩
      rw [hImage] at hDecoded
      cases hDecoded
      exact ⟨hPos, hDecodedValue⟩
    rw [(hValue hFirst).2, (hValue hSecond).2]
    exact compactFloor_mono (hValue hFirst).1 hLe

end Amarian
