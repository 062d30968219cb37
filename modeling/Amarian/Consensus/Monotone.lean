import Amarian.Consensus.Retarget
import Mathlib.Algebra.Order.Group.Int
import Mathlib.Order.Monotone.Basic
import Mathlib.Data.Int.ConditionallyCompleteOrder
import Mathlib.Data.Int.Order.Basic

/-
  The order of targets under the retargeting rule.

  The factor runs from one to just below two, so the pieces
  of the approximation join at every half-life: an exponent
  that is no smaller never gives a smaller target.  Later
  blocks have greater exponents and higher ones smaller, and
  neither the clamps nor the compact form turn that around.

  Key theorems include:
    * `Retarget.target_mono`
    * `Retarget.exponent_mono_time`
    * `Retarget.exponent_anti_height`
    * `asertNextBits_monotone`
-/

------------------------------------------------------------
-- Scaling
------------------------------------------------------------

namespace Amarian

namespace Retarget

theorem scale_mono_value
    {first second : Nat}
    (hLe : first ≤ second)
    (shift : Int) :
    scale first shift ≤ scale second shift := by
  unfold scale
  split
  · exact Nat.mul_le_mul_right _ hLe
  · exact Nat.div_le_div_right hLe

/- One place more is twice the value. -/
theorem scale_succ
    (value : Nat)
    (shift : Int) :
    scale value (shift + 1) = scale (2 * value) shift := by
  unfold scale
  by_cases hLeft : 0 ≤ shift
  · have hNext : (shift + 1).toNat = shift.toNat + 1 := by
      omega
    rw [if_pos (by omega), if_pos hLeft, hNext, Nat.pow_succ']
    ring
  · rw [if_neg hLeft]
    have hLast : (-shift).toNat =
        (-(shift + 1)).toNat + 1 := by
      omega
    rw [hLast, Nat.pow_succ', ← Nat.div_div_eq_div_mul,
      Nat.mul_div_cancel_left _ (by decide)]
    by_cases hOne : shift + 1 = 0
    · rw [hOne]
      simp
    · rw [if_neg (by omega)]

theorem scale_mono_shift
    (value : Nat) :
    Monotone (scale value) := by
  apply monotone_int_of_le_succ
  intro shift
  rw [scale_succ]
  exact scale_mono_value (by omega) shift

theorem factor_mono
    {first second : Nat}
    (hLe : first ≤ second) :
    factor first ≤ factor second := by
  have hSquare := Nat.pow_le_pow_left hLe 2
  have hCube := Nat.pow_le_pow_left hLe 3
  unfold factor
  omega

/- One half-life on, no factor makes the value smaller. -/
theorem scale_join
    (value : Nat)
    {low high : Nat}
    (hLow : low ≤ 2 ^ 17)
    (hHigh : 2 ^ 16 ≤ high)
    {first second : Int}
    (hLess : first < second) :
    scale (value * low) first ≤
      scale (value * high) second := by
  have hDouble : value * low ≤ 2 * (value * 2 ^ 16) := by
    rw [Nat.mul_left_comm]
    exact Nat.mul_le_mul_left value hLow
  have hNext := scale_mono_shift (value * 2 ^ 16)
    (Int.add_one_le_of_lt hLess)
  calc scale (value * low) first
      ≤ scale (2 * (value * 2 ^ 16)) first :=
        scale_mono_value hDouble first
    _ = scale (value * 2 ^ 16) (first + 1) :=
        (scale_succ ..).symm
    _ ≤ scale (value * 2 ^ 16) second := hNext
    _ ≤ scale (value * high) second :=
        scale_mono_value (Nat.mul_le_mul_left value hHigh)
          second

/- The pieces of the approximation join. -/
theorem target_mono
    (anchor floor : Nat) :
    Monotone (target anchor floor) := by
  intro first second hLe
  have hScale :
      scale
          (min anchor floor *
            factor (first % 2 ^ 16).toNat)
          (first / 2 ^ 16 - 16) ≤
        scale
          (min anchor floor *
            factor (second % 2 ^ 16).toNat)
          (second / 2 ^ 16 - 16) := by
    by_cases hLess : first / 2 ^ 16 < second / 2 ^ 16
    · have hTop := factor_lt
        (show (first % 2 ^ 16).toNat < 2 ^ 16 by omega)
      exact scale_join _ (Nat.le_of_lt hTop)
        (Nat.le_add_right ..) (by omega)
    · have hPiece : first / 2 ^ 16 = second / 2 ^ 16 := by
        omega
      rw [hPiece]
      apply scale_mono_value
      exact Nat.mul_le_mul_left _ (factor_mono (by omega))
  unfold target
  generalize scale _ (first / 2 ^ 16 - 16) = below at hScale ⊢
  generalize scale _ (second / 2 ^ 16 - 16) = above
    at hScale ⊢
  omega

------------------------------------------------------------
-- Exponents
------------------------------------------------------------

theorem clamp_mono
    (low high : Int) :
    Monotone fun value => clamp value low high := by
  intro first second hLe
  unfold clamp
  dsimp only
  omega

theorem exponent_mono
    {anchorTime firstHeight secondHeight firstTime secondTime
      spacingSeconds : Int}
    (hLe :
      deviation anchorTime firstHeight firstTime
          spacingSeconds ≤
        deviation anchorTime secondHeight secondTime
          spacingSeconds)
    (halfLifeSeconds : Int) :
    exponent anchorTime firstHeight firstTime spacingSeconds
        halfLifeSeconds ≤
      exponent anchorTime secondHeight secondTime
        spacingSeconds halfLifeSeconds := by
  rcases @clamp_mem halfLifeSeconds 1 (2 ^ 62) (by decide)
    with ⟨hLow, -⟩
  exact Int.tdiv_le_tdiv (by omega) (by omega)

/- A later block has no smaller exponent. -/
theorem exponent_mono_time
    {first second : Int}
    (hLe : first ≤ second)
    (anchorTime heightDelta spacingSeconds
      halfLifeSeconds : Int) :
    exponent anchorTime heightDelta first spacingSeconds
        halfLifeSeconds ≤
      exponent anchorTime heightDelta second spacingSeconds
        halfLifeSeconds := by
  apply exponent_mono
  have hClamp := clamp_mono (-2 ^ 61) (2 ^ 61) hLe
  unfold deviation
  dsimp only at hClamp
  omega

/- A higher block at one time has no greater exponent. -/
theorem exponent_anti_height
    {first second : Int}
    (hLe : first ≤ second)
    (anchorTime tipTime spacingSeconds
      halfLifeSeconds : Int) :
    exponent anchorTime second tipTime spacingSeconds
        halfLifeSeconds ≤
      exponent anchorTime first tipTime spacingSeconds
        halfLifeSeconds := by
  apply exponent_mono
  rcases @clamp_mem spacingSeconds 1 (2 ^ 31) (by decide)
    with ⟨hSpacing, -⟩
  have hProduct := Int.mul_le_mul_of_nonneg_left
    (clamp_mono 1 (2 ^ 31) hLe)
    (show 0 ≤ clamp spacingSeconds 1 (2 ^ 31) by omega)
  unfold deviation
  dsimp only at hProduct
  omega

theorem target_pos
    (anchor floor : Nat)
    (exponent : Int) :
    0 < target anchor floor exponent :=
  Nat.lt_of_lt_of_le Nat.one_pos (Nat.le_max_left ..)

theorem target_le
    {floor : Nat}
    (hFloor : 0 < floor)
    (anchor : Nat)
    (exponent : Int) :
    target anchor floor exponent ≤ floor :=
  Nat.max_le.mpr ⟨hFloor, Nat.min_le_left ..⟩

end Retarget

------------------------------------------------------------
-- The Order Of Targets
------------------------------------------------------------

/- The target of the reference, rounded as it is encoded. -/
theorem asertNextBits_decodes
    {anchorBits powLimitBits : UInt32}
    {anchor floor : Target}
    (hAnchor : compactToTarget anchorBits = some anchor)
    (hFloor : compactToTarget powLimitBits = some floor)
    (anchorTime : Int64)
    {heightDelta : Int64}
    (hHeight : 1 ≤ heightDelta)
    (tipTime spacingSeconds halfLifeSeconds : Int64) :
    ∃ target,
      compactToTarget
            (asertNextBits anchorBits anchorTime heightDelta
              tipTime spacingSeconds halfLifeSeconds
              powLimitBits) =
          some target ∧
        magnitude target.bytes =
          compactFloor
            (Retarget.target (magnitude anchor.bytes)
              (magnitude floor.bytes)
              (Retarget.exponent anchorTime.toInt
                heightDelta.toInt tipTime.toInt
                spacingSeconds.toInt
                halfLifeSeconds.toInt)) := by
  have hBelow := magnitude_lt floor.bytes
  rw [floor.size_eq] at hBelow
  rw [asertNextBits_eq hAnchor hFloor anchorTime hHeight
    tipTime spacingSeconds halfLifeSeconds]
  generalize Retarget.exponent anchorTime.toInt
    heightDelta.toInt tipTime.toInt spacingSeconds.toInt
    halfLifeSeconds.toInt = exponent
  have hPos := Retarget.target_pos (magnitude anchor.bytes)
    (magnitude floor.bytes) exponent
  have hLe := Retarget.target_le (magnitude_pos hFloor)
    (magnitude anchor.bytes) exponent
  have hValue := magnitude_targetOf
    (Nat.lt_of_le_of_lt hLe hBelow)
  rw [← hValue] at hPos
  rcases compactToTarget_targetToCompact hPos with
    ⟨decoded, hDecoded, hRounded⟩
  rw [hValue] at hRounded
  exact ⟨decoded, hDecoded, hRounded⟩

theorem decoded_mono
    {anchorBits powLimitBits : UInt32}
    {anchor floor : Target}
    (hAnchor : compactToTarget anchorBits = some anchor)
    (hFloor : compactToTarget powLimitBits = some floor)
    (anchorTime spacingSeconds halfLifeSeconds : Int64)
    {firstHeight secondHeight : Int64}
    (hFirst : 1 ≤ firstHeight)
    (hSecond : 1 ≤ secondHeight)
    {firstTime secondTime : Int64}
    (hLe :
      Retarget.exponent anchorTime.toInt firstHeight.toInt
          firstTime.toInt spacingSeconds.toInt
          halfLifeSeconds.toInt ≤
        Retarget.exponent anchorTime.toInt
          secondHeight.toInt secondTime.toInt
          spacingSeconds.toInt halfLifeSeconds.toInt)
    {first second : Target}
    (hFirstTarget :
      compactToTarget
          (asertNextBits anchorBits anchorTime firstHeight
            firstTime spacingSeconds halfLifeSeconds
            powLimitBits) =
        some first)
    (hSecondTarget :
      compactToTarget
          (asertNextBits anchorBits anchorTime secondHeight
            secondTime spacingSeconds halfLifeSeconds
            powLimitBits) =
        some second) :
    magnitude first.bytes ≤ magnitude second.bytes := by
  rcases asertNextBits_decodes hAnchor hFloor anchorTime
    hFirst firstTime spacingSeconds halfLifeSeconds with
    ⟨decoded, hDecoded, hFirstValue⟩
  rw [hFirstTarget] at hDecoded
  cases hDecoded
  rcases asertNextBits_decodes hAnchor hFloor anchorTime
    hSecond secondTime spacingSeconds halfLifeSeconds with
    ⟨decoded, hDecoded, hSecondValue⟩
  rw [hSecondTarget] at hDecoded
  cases hDecoded
  rw [hFirstValue, hSecondValue]
  exact compactFloor_mono (Retarget.target_pos ..)
    (Retarget.target_mono _ _ hLe)

/-
  The next target exists between one and the floor; a later
  block never makes it smaller, and more blocks in the same
  time never make it greater.
-/
theorem asertNextBits_monotone
    {anchorBits powLimitBits : UInt32}
    {anchor floor : Target}
    (hAnchor : compactToTarget anchorBits = some anchor)
    (hFloor : compactToTarget powLimitBits = some floor)
    (anchorTime spacingSeconds halfLifeSeconds : Int64) :
    (∀ heightDelta tipTime : Int64,
      1 ≤ heightDelta →
        ∃ target,
          compactToTarget
                (asertNextBits anchorBits anchorTime
                  heightDelta tipTime spacingSeconds
                  halfLifeSeconds powLimitBits) =
              some target ∧
            1 ≤ magnitude target.bytes ∧
            magnitude target.bytes ≤
              magnitude floor.bytes) ∧
      (∀ (heightDelta firstTime secondTime : Int64)
          (first second : Target),
        1 ≤ heightDelta →
          firstTime ≤ secondTime →
            compactToTarget
                (asertNextBits anchorBits anchorTime
                  heightDelta firstTime spacingSeconds
                  halfLifeSeconds powLimitBits) =
              some first →
            compactToTarget
                (asertNextBits anchorBits anchorTime
                  heightDelta secondTime spacingSeconds
                  halfLifeSeconds powLimitBits) =
              some second →
            magnitude first.bytes ≤
              magnitude second.bytes) ∧
      (∀ (firstHeight secondHeight tipTime : Int64)
          (first second : Target),
        1 ≤ firstHeight →
          firstHeight ≤ secondHeight →
            compactToTarget
                (asertNextBits anchorBits anchorTime
                  firstHeight tipTime spacingSeconds
                  halfLifeSeconds powLimitBits) =
              some first →
            compactToTarget
                (asertNextBits anchorBits anchorTime
                  secondHeight tipTime spacingSeconds
                  halfLifeSeconds powLimitBits) =
              some second →
            magnitude second.bytes ≤
              magnitude first.bytes) := by
  refine ⟨?_, ?_, ?_⟩
  · intro heightDelta tipTime hHeight
    rcases asertNextBits_decodes hAnchor hFloor anchorTime
      hHeight tipTime spacingSeconds halfLifeSeconds with
      ⟨target, hTarget, -⟩
    exact ⟨target, hTarget, magnitude_pos hTarget,
      asertNextBits_within hFloor anchorBits anchorTime
        heightDelta tipTime spacingSeconds halfLifeSeconds
        target hTarget⟩
  · intro heightDelta firstTime secondTime first second
      hHeight hLe
    apply decoded_mono hAnchor hFloor anchorTime
      spacingSeconds halfLifeSeconds hHeight hHeight
    exact Retarget.exponent_mono_time
      (Int64.le_iff_toInt_le.mp hLe) ..
  · intro firstHeight secondHeight tipTime first second
      hFirst hLe hFirstTarget hSecondTarget
    refine decoded_mono hAnchor hFloor anchorTime
      spacingSeconds halfLifeSeconds
      (Int64.le_trans hFirst hLe) hFirst ?_ hSecondTarget
      hFirstTarget
    exact Retarget.exponent_anti_height
      (Int64.le_iff_toInt_le.mp hLe) ..

namespace Sample

/- An hour behind schedule, the next target is in range. -/
theorem asertNextBits_in_range :
    ∃ target,
      compactToTarget
            (asertNextBits floorBits 0 10 9600 600 172800
              floorBits) =
          some target ∧
        1 ≤ magnitude target.bytes ∧
        magnitude target.bytes ≤
          magnitude floorTarget.bytes :=
  (asertNextBits_monotone floorBits_decodes
    floorBits_decodes 0 600 172800).1 10 9600 (by decide)

end Sample

end Amarian
