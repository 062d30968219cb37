import Mathlib.Data.List.Induction
import Mathlib.Tactic.Common
import Amarian.Lib.ShiftRegister
import Amarian.Wallet.Address

/-
  The checksum of an address.

  What `polyMod` carries is a register of thirty bits whose
  sum is the exclusive or. Moving it on is additive, and loses
  nothing because the lowest five bits of the generators are
  independent.

  Key definitions include:
    * `computeChecksum5`
    * `Remainder`
    * `advance`

  Key theorems include:
    * `advance_injective`
    * `polyMod_replaced`
    * `polyMod_checksum`
    * `checksum_unique`
-/

------------------------------------------------------------
-- Writing The Checksum
------------------------------------------------------------

namespace Amarian

namespace Wallet

def checksumValue
    (poly : UInt32)
    (place : Nat) : UInt8 :=
  ((poly >>> UInt32.ofNat (5 * (5 - place))) &&& 0x1F).toUInt8

def computeChecksum5
    (hrpExpanded data5bit : ByteVec) : ByteVec :=
  let input :=
    hrpExpanded ++ data5bit ++ List.replicate 6 0
  let poly := polyMod input ^^^ bech32mConst
  (List.range 6).map (checksumValue poly)

------------------------------------------------------------
-- The Register
------------------------------------------------------------

/- A value of the register, below thirty bits. -/
@[ext] structure Remainder where
  word : UInt32
  below : word.toNat < 2 ^ 30

namespace Remainder

def add
    (left right : Remainder) : Remainder where
  word := left.word ^^^ right.word
  below := by
    rw [UInt32.toNat_xor]
    exact Nat.xor_lt_two_pow left.below right.below

instance : Add Remainder := ⟨add⟩

instance : Zero Remainder := ⟨⟨0, by decide⟩⟩

instance : Neg Remainder := ⟨id⟩

instance : AddCommGroup Remainder where
  nsmul := nsmulRec
  zsmul := zsmulRec
  add_assoc left middle right :=
    Remainder.ext (UInt32.xor_assoc _ _ _)
  add_comm left right :=
    Remainder.ext (UInt32.xor_comm _ _)
  zero_add state := Remainder.ext UInt32.zero_xor
  add_zero state := Remainder.ext UInt32.xor_zero
  neg_add_cancel state := Remainder.ext UInt32.xor_self

@[simp] theorem word_zero : (0 : Remainder).word = 0 :=
  rfl

@[simp] theorem word_add
    (left right : Remainder) :
    (left + right).word = left.word ^^^ right.word :=
  rfl

@[simp] theorem word_sub
    (left right : Remainder) :
    (left - right).word = left.word ^^^ right.word := by
  rw [sub_eq_add_neg]
  rfl

end Remainder

------------------------------------------------------------
-- The Generators
------------------------------------------------------------

/- Whether the loop takes the generator in. -/
abbrev taps
    (top : UInt32)
    (place : Nat) : Prop :=
  (top >>> UInt32.ofNat place) &&& 1 = 1

/- What the generators add, given the bits shifted out. -/
def feedback
    (top : UInt32) : UInt32 :=
  (checksumGenerators.zipIdx).foldl
    (fun next (generator, place) =>
      if taps top place then next ^^^ generator else next)
    0

/- What one generator adds. -/
def tapped
    (top : UInt32)
    (generator : UInt32 × Nat) : UInt32 :=
  if taps top generator.2 then generator.1 else 0

theorem foldl_taps
    (top next : UInt32)
    (generators : List (UInt32 × Nat)) :
    generators.foldl
        (fun next (generator, place) =>
          if taps top place then next ^^^ generator else next)
        next =
      next ^^^
        (generators.map (tapped top)).foldr (· ^^^ ·) 0 := by
  induction generators generalizing next with
  | nil => exact UInt32.xor_zero.symm
  | cons generator generators hRest =>
      rw [List.foldl_cons, List.map_cons, List.foldr_cons,
        hRest]
      dsimp only
      unfold tapped
      by_cases hTaps : taps top generator.2
      · rw [if_pos hTaps, if_pos hTaps, UInt32.xor_assoc]
      · rw [if_neg hTaps, if_neg hTaps, UInt32.zero_xor]

theorem polyModStep_eq
    (chk value : UInt32) :
    polyModStep chk value =
      ((chk &&& 0x1FFFFFF) <<< 5) ^^^ value ^^^
        feedback (chk >>> 25) := by
  unfold feedback
  rw [foldl_taps _ 0, UInt32.zero_xor]
  exact foldl_taps (chk >>> 25)
    (((chk &&& 0x1FFFFFF) <<< 5) ^^^ value) _

theorem polyModStep_eq_add
    (chk value : UInt32) :
    polyModStep chk value = polyModStep chk 0 ^^^ value := by
  rw [polyModStep_eq, polyModStep_eq, UInt32.xor_zero,
    UInt32.xor_assoc, UInt32.xor_assoc,
    UInt32.xor_comm value]

theorem lowestBit_cases
    (word : UInt32) :
    word &&& 1 = 0 ∨ word &&& 1 = 1 := by
  have hSmall : (word &&& 1).toNat < 2 ^ 1 := by
    rw [UInt32.toNat_and]
    exact Nat.and_lt_two_pow _ (by decide)
  rcases Nat.le_one_iff_eq_zero_or_eq_one.mp
      (Nat.lt_succ_iff.mp hSmall) with hZero | hOne
  · exact Or.inl (UInt32.toNat_inj.mp hZero)
  · exact Or.inr (UInt32.toNat_inj.mp hOne)

theorem xor_and
    (left right mask : UInt32) :
    (left ^^^ right) &&& mask =
      (left &&& mask) ^^^ (right &&& mask) := by
  apply UInt32.toNat_inj.mp
  rw [UInt32.toNat_and, UInt32.toNat_xor, UInt32.toNat_xor,
    UInt32.toNat_and, UInt32.toNat_and]
  exact Nat.and_xor_distrib_right

theorem tapped_xor
    (left right : UInt32)
    (generator : UInt32 × Nat) :
    tapped (left ^^^ right) generator =
      tapped left generator ^^^ tapped right generator := by
  have hBit :
      ((left ^^^ right) >>> UInt32.ofNat generator.2) &&& 1 =
        ((left >>> UInt32.ofNat generator.2) &&& 1) ^^^
          ((right >>> UInt32.ofNat generator.2) &&& 1) := by
    rw [UInt32.shiftRight_xor, xor_and]
  unfold tapped taps
  rw [hBit]
  rcases lowestBit_cases
      (left >>> UInt32.ofNat generator.2) with
    hLeft | hLeft <;>
  rcases lowestBit_cases
      (right >>> UInt32.ofNat generator.2) with
    hRight | hRight <;>
  rw [hLeft, hRight] <;>
  simp

theorem feedback_eq
    (top : UInt32) :
    feedback top =
      (checksumGenerators.zipIdx.map (tapped top)).foldr
        (· ^^^ ·) 0 := by
  unfold feedback
  rw [foldl_taps, UInt32.zero_xor]

theorem feedback_xor
    (left right : UInt32) :
    feedback (left ^^^ right) =
      feedback left ^^^ feedback right := by
  rw [feedback_eq, feedback_eq, feedback_eq]
  induction checksumGenerators.zipIdx with
  | nil => exact UInt32.xor_self.symm
  | cons generator generators hRest =>
      simp only [List.map_cons, List.foldr_cons]
      rw [hRest, tapped_xor]
      ac_rfl

theorem polyModStep_xor
    (left right : UInt32) :
    polyModStep (left ^^^ right) 0 =
      polyModStep left 0 ^^^ polyModStep right 0 := by
  have hShifted :
      ((left ^^^ right) &&& 0x1FFFFFF) <<< 5 =
        ((left &&& 0x1FFFFFF) <<< 5) ^^^
          ((right &&& 0x1FFFFFF) <<< (5 : UInt32)) := by
    rw [xor_and, UInt32.shiftLeft_xor]
  rw [polyModStep_eq, polyModStep_eq, polyModStep_eq,
    hShifted, UInt32.shiftRight_xor, feedback_xor]
  simp only [UInt32.xor_zero]
  ac_rfl

/- The lowest five bits of the generators are independent. -/
theorem feedback_low
    {top : UInt32}
    (hTop : top.toNat < 32)
    (hLow : feedback top &&& 0x1F = 0) :
    top = 0 := by
  have hAll : ∀ number < 32,
      feedback (UInt32.ofNat number) &&& 0x1F = 0 →
        number = 0 := by
    decide
  have hNumber := hAll top.toNat hTop
    (by rw [UInt32.ofNat_toNat]; exact hLow)
  exact UInt32.toNat_inj.mp hNumber

------------------------------------------------------------
-- Moving The Register On
------------------------------------------------------------

theorem feedback_below
    (top : UInt32) :
    (feedback top).toNat < 2 ^ 30 := by
  have hGenerators :
      ∀ generator ∈ checksumGenerators.zipIdx,
        generator.1.toNat < 2 ^ 30 := by
    decide
  rw [feedback_eq]
  revert hGenerators
  induction checksumGenerators.zipIdx with
  | nil =>
      intro _
      exact Nat.two_pow_pos 30
  | cons generator generators hRest =>
      intro hGenerators
      rw [List.map_cons, List.foldr_cons, UInt32.toNat_xor]
      have hOthers := hRest fun other hOther =>
        hGenerators other (List.mem_cons_of_mem _ hOther)
      have hTapped : (tapped top generator).toNat < 2 ^ 30 := by
        unfold tapped
        split
        · exact hGenerators generator List.mem_cons_self
        · decide
      exact Nat.xor_lt_two_pow hTapped hOthers

theorem toNat_moved
    (chk : UInt32) :
    ((chk &&& 0x1FFFFFF) <<< 5).toNat =
      chk.toNat % 2 ^ 25 * 2 ^ 5 := by
  have hMask :
      (chk &&& 0x1FFFFFF).toNat = chk.toNat % 2 ^ 25 := by
    rw [UInt32.toNat_and]
    exact Nat.and_two_pow_sub_one_eq_mod chk.toNat 25
  have hPlaces : UInt32.toNat 5 % 32 = 5 := rfl
  rw [UInt32.toNat_shiftLeft, hPlaces, hMask,
    Nat.shiftLeft_eq]
  have hSmall := Nat.mod_lt chk.toNat
    (show 0 < 2 ^ 25 by decide)
  omega

theorem polyModStep_below
    (chk : UInt32)
    {value : UInt32}
    (hValue : value.toNat < 2 ^ 30) :
    (polyModStep chk value).toNat < 2 ^ 30 := by
  have hMoved :
      ((chk &&& 0x1FFFFFF) <<< 5).toNat < 2 ^ 30 := by
    rw [toNat_moved]
    omega
  rw [polyModStep_eq, UInt32.toNat_xor, UInt32.toNat_xor]
  exact Nat.xor_lt_two_pow
    (Nat.xor_lt_two_pow hMoved hValue) (feedback_below _)

/- One step with no new value is linear. -/
def advance : Remainder →+ Remainder where
  toFun state :=
    { word := polyModStep state.word 0
      below := polyModStep_below _ (by decide) }
  map_zero' := Remainder.ext (by decide)
  map_add' left right :=
    Remainder.ext (polyModStep_xor left.word right.word)

/- A register that is moved on to nothing held nothing. -/
theorem polyModStep_eq_zero
    {chk : UInt32}
    (hBelow : chk.toNat < 2 ^ 30)
    (hZero : polyModStep chk 0 = 0) :
    chk = 0 := by
  rw [polyModStep_eq, UInt32.xor_zero,
    UInt32.xor_eq_zero_iff] at hZero
  have hTopNat : (chk >>> 25).toNat = chk.toNat / 2 ^ 25 := by
    have hPlaces : UInt32.toNat 25 % 32 = 25 := rfl
    rw [UInt32.toNat_shiftRight, hPlaces,
      Nat.shiftRight_eq_div_pow]
  have hLow : feedback (chk >>> 25) &&& 0x1F = 0 := by
    rw [← hZero]
    apply UInt32.toNat_inj.mp
    rw [UInt32.toNat_and, toNat_moved]
    have hMask := Nat.and_two_pow_sub_one_eq_mod
      (chk.toNat % 2 ^ 25 * 2 ^ 5) 5
    exact hMask.trans (Nat.mul_mod_left _ _)
  have hTop : chk >>> 25 = 0 :=
    feedback_low (by rw [hTopNat]; omega) hLow
  have hNoTop : chk.toNat / 2 ^ 25 = 0 := by
    rw [← hTopNat, hTop]
    rfl
  have hMoved : chk.toNat % 2 ^ 25 * 2 ^ 5 = 0 := by
    rw [← toNat_moved, hZero, hTop]
    decide
  apply UInt32.toNat_inj.mp
  have hNothing : UInt32.toNat 0 = 0 := rfl
  omega

theorem advance_injective : Function.Injective advance := by
  refine (injective_iff_map_eq_zero advance).mpr ?_
  intro state hZero
  exact Remainder.ext
    (polyModStep_eq_zero state.below
      (congrArg Remainder.word hZero))

------------------------------------------------------------
-- The Checksum As A Run
------------------------------------------------------------

open ShiftRegister

def remainderOf
    (value : UInt8) : Remainder where
  word := value.toUInt32
  below := by
    have hValue := value.toNat_lt
    rw [UInt8.toNat_toUInt32]
    omega

theorem remainderOf_injective :
    Function.Injective remainderOf := by
  intro left right hSame
  have hWords := congrArg Remainder.word hSame
  have hNats := congrArg UInt32.toNat hWords
  exact UInt8.toNat_inj.mp
    (by simpa [remainderOf] using hNats)

def unitRemainder : Remainder := ⟨1, by decide⟩

theorem foldl_polyModStep
    (state : Remainder)
    (values : ByteVec) :
    values.foldl
        (fun chk value => polyModStep chk value.toUInt32)
        state.word =
      (ShiftRegister.run advance state
        (values.map remainderOf)).word := by
  induction values generalizing state with
  | nil => rfl
  | cons value values hRest =>
      have hFeed :
          polyModStep state.word value.toUInt32 =
            (feed advance state (remainderOf value)).word :=
        polyModStep_eq_add state.word value.toUInt32
      rw [List.foldl_cons, hFeed, hRest]
      rfl

theorem polyMod_eq_run
    (values : ByteVec) :
    polyMod values =
      (ShiftRegister.run advance unitRemainder
        (values.map remainderOf)).word :=
  foldl_polyModStep unitRemainder values

/- One value that is replaced changes the checksum. -/
theorem polyMod_replaced
    (before after : ByteVec)
    {value other : UInt8}
    (hOther : other ≠ value) :
    polyMod (before ++ other :: after) ≠
      polyMod (before ++ value :: after) := by
  intro hSame
  rw [polyMod_eq_run, polyMod_eq_run] at hSame
  have hRuns := Remainder.ext hSame
  simp only [List.map_append, List.map_cons] at hRuns
  exact run_replaced advance_injective unitRemainder _ _
    (fun hValue => hOther (remainderOf_injective hValue))
    hRuns

/- A value fed to a register with room for it stands below
   what was there. -/
theorem toNat_feed_small
    {upper : Remainder}
    {value : UInt8}
    (hUpper : upper.word.toNat < 2 ^ 25)
    (hValue : value.toNat < 2 ^ 5) :
    (feed advance upper (remainderOf value)).word.toNat =
      upper.word.toNat * 2 ^ 5 + value.toNat := by
  have hFeed :
      (feed advance upper (remainderOf value)).word =
        polyModStep upper.word value.toUInt32 :=
    (polyModStep_eq_add upper.word value.toUInt32).symm
  have hTop : upper.word >>> 25 = 0 := by
    apply UInt32.toNat_inj.mp
    have hPlaces : UInt32.toNat 25 % 32 = 25 := rfl
    rw [UInt32.toNat_shiftRight, hPlaces,
      Nat.shiftRight_eq_div_pow, Nat.div_eq_of_lt hUpper]
    rfl
  have hNoFeedback : feedback 0 = 0 := by
    decide
  rw [hFeed, polyModStep_eq, hTop, hNoFeedback,
    UInt32.xor_zero, UInt32.toNat_xor, toNat_moved,
    Nat.mod_eq_of_lt hUpper, UInt8.toNat_toUInt32]
  have hAbove := Nat.xor_div_two_pow
    (a := upper.word.toNat * 2 ^ 5) (b := value.toNat) (n := 5)
  have hBelow := Nat.xor_mod_two_pow
    (a := upper.word.toNat * 2 ^ 5) (b := value.toNat) (n := 5)
  rw [Nat.mul_div_cancel _ (by decide),
    Nat.div_eq_of_lt hValue, Nat.xor_zero] at hAbove
  rw [Nat.mul_mod_left, Nat.mod_eq_of_lt hValue,
    Nat.zero_xor] at hBelow
  omega

theorem toNat_checksumValue
    (poly : UInt32)
    (place : Nat) :
    (checksumValue poly place).toNat =
      poly.toNat / 2 ^ (5 * (5 - place)) % 2 ^ 5 := by
  have hShift :
      (UInt32.ofNat (5 * (5 - place))).toNat % 32 =
        5 * (5 - place) := by
    rw [UInt32.toNat_ofNat']
    omega
  have hMask := Nat.and_two_pow_sub_one_eq_mod
    (poly.toNat >>> (5 * (5 - place))) 5
  unfold checksumValue
  rw [UInt32.toNat_toUInt8, UInt32.toNat_and,
    UInt32.toNat_shiftRight, hShift]
  have hNumber : UInt32.toNat 0x1F = 2 ^ 5 - 1 := rfl
  rw [hNumber, hMask, Nat.shiftRight_eq_div_pow]
  omega

/- The values of the checksum, from the highest, put the
   register together again. -/
theorem run_checksumValues
    (poly : Remainder)
    {count : Nat}
    (hCount : count ≤ 6) :
    (ShiftRegister.run advance 0
        (((List.range count).map
          (checksumValue poly.word)).map
            remainderOf)).word.toNat =
      poly.word.toNat / 2 ^ (5 * (6 - count)) := by
  induction count with
  | zero =>
      have hNothing : poly.word.toNat / 2 ^ 30 = 0 :=
        Nat.div_eq_of_lt poly.below
      exact hNothing.symm
  | succ count hRest =>
      have hUpper := hRest (by omega)
      have hRoom :
          poly.word.toNat / 2 ^ (5 * (6 - count)) <
            2 ^ 25 := by
        have hPow : 2 ^ 5 ≤ 2 ^ (5 * (6 - count)) :=
          Nat.pow_le_pow_right (by decide) (by omega)
        have hLess := Nat.div_le_div_left hPow
          (show 0 < 2 ^ 5 by decide) (a := poly.word.toNat)
        have hBelow := poly.below
        omega
      have hPow :
          2 ^ (5 * (6 - count)) =
            2 ^ (5 * (5 - count)) * 2 ^ 5 := by
        rw [← Nat.pow_add]
        congr 1
        omega
      have hNext : 5 * (6 - (count + 1)) = 5 * (5 - count) := by
        omega
      rw [List.range_succ, List.map_append, List.map_append,
        ShiftRegister.run_append, List.map_singleton,
        List.map_singleton, ShiftRegister.run_cons,
        ShiftRegister.run_nil,
        toNat_feed_small (by rw [hUpper]; exact hRoom)
          (by
            rw [toNat_checksumValue]
            exact Nat.mod_lt _ (by decide)),
        hUpper, toNat_checksumValue, hPow, hNext,
        ← Nat.div_div_eq_div_mul]
      exact Nat.div_add_mod' _ _

theorem run_checksum
    (poly : Remainder) :
    ShiftRegister.run advance 0
        (((List.range 6).map (checksumValue poly.word)).map
          remainderOf) =
      poly := by
  apply Remainder.ext
  apply UInt32.toNat_inj.mp
  rw [run_checksumValues poly (Nat.le_refl 6)]
  exact Nat.div_one _

def targetRemainder : Remainder :=
  ⟨bech32mConst, by decide⟩

/- What is checked on reading is so for what was written. -/
theorem polyMod_checksum
    (hrpExpanded data5bit : ByteVec) :
    polyMod
        (hrpExpanded ++ data5bit ++
          computeChecksum5 hrpExpanded data5bit) =
      bech32mConst := by
  let values :=
    (hrpExpanded ++ data5bit).map remainderOf
  let padded := ShiftRegister.run advance unitRemainder
    (values ++ List.replicate 6 0)
  have hPadded :
      polyMod (hrpExpanded ++ data5bit ++
          List.replicate 6 0) =
        padded.word := by
    rw [polyMod_eq_run, List.map_append]
    rfl
  have hPoly :
      polyMod (hrpExpanded ++ data5bit ++
            List.replicate 6 0) ^^^ bech32mConst =
        (targetRemainder - padded).word := by
    rw [hPadded, Remainder.word_sub, UInt32.xor_comm]
    rfl
  have hCheck :
      ShiftRegister.run advance 0
          ((computeChecksum5 hrpExpanded data5bit).map
            remainderOf) =
        targetRemainder - padded := by
    unfold computeChecksum5
    dsimp only
    rw [hPoly]
    exact run_checksum (targetRemainder - padded)
  have hTarget :
      ShiftRegister.run advance unitRemainder
          (values ++
            (computeChecksum5 hrpExpanded data5bit).map
              remainderOf) =
        targetRemainder :=
    run_check unitRemainder targetRemainder values _ hCheck
  rw [polyMod_eq_run, List.map_append, hTarget]
  rfl

------------------------------------------------------------
-- No Other Checksum
------------------------------------------------------------

/- A value that comes last stands below the others. -/
theorem toNat_run_concat
    {values : ByteVec}
    {value : UInt8}
    (hUpper :
      (ShiftRegister.run advance 0
          (values.map remainderOf)).word.toNat <
        2 ^ 25)
    (hValue : value.toNat < 2 ^ 5) :
    (ShiftRegister.run advance 0
        ((values ++ [value]).map remainderOf)).word.toNat =
      (ShiftRegister.run advance 0
          (values.map remainderOf)).word.toNat * 2 ^ 5 +
        value.toNat := by
  rw [List.map_append, ShiftRegister.run_append,
    List.map_singleton, ShiftRegister.run_cons,
    ShiftRegister.run_nil, toNat_feed_small hUpper hValue]

/- Up to six values stand side by side in the register. -/
theorem toNat_run_lt
    {values : ByteVec}
    (hFew : values.length ≤ 6)
    (hValues : ∀ value ∈ values, value.toNat < 2 ^ 5) :
    (ShiftRegister.run advance 0
        (values.map remainderOf)).word.toNat <
      2 ^ (5 * values.length) := by
  induction values using List.reverseRecOn with
  | nil => exact Nat.one_pos
  | append_singleton values value ih =>
      rw [List.length_append, List.length_singleton] at hFew
      have hUpper := ih (by omega) fun other hOther =>
        hValues other (List.mem_append_left _ hOther)
      have hValue := hValues value
        (List.mem_append_right _ (List.mem_singleton_self _))
      have hRoom : 2 ^ (5 * values.length) ≤ 2 ^ 25 :=
        Nat.pow_le_pow_right (by decide) (by omega)
      rw [toNat_run_concat
          (Nat.lt_of_lt_of_le hUpper hRoom) hValue,
        List.length_append, List.length_singleton,
        Nat.mul_add, Nat.pow_add]
      omega

/- By induction from the last value back. -/
theorem run_values_injective
    {left right : ByteVec}
    (hLength : left.length = right.length)
    (hFew : left.length ≤ 6)
    (hLeft : ∀ value ∈ left, value.toNat < 2 ^ 5)
    (hRight : ∀ value ∈ right, value.toNat < 2 ^ 5)
    (hSame :
      ShiftRegister.run advance 0 (left.map remainderOf) =
        ShiftRegister.run advance 0
          (right.map remainderOf)) :
    left = right := by
  induction left using List.reverseRecOn
    generalizing right with
  | nil => exact (List.length_eq_zero_iff.mp hLength.symm).symm
  | append_singleton left value ih =>
      rcases List.eq_nil_or_concat right with
        rfl | ⟨others, other, hRightEq⟩
      · rw [List.length_append] at hLength
        cases hLength
      rw [List.concat_eq_append] at hRightEq
      subst hRightEq
      rw [List.length_append, List.length_append,
        List.length_singleton, List.length_singleton,
        Nat.add_right_cancel_iff] at hLength
      rw [List.length_append, List.length_singleton] at hFew
      have hLeftOld : ∀ value ∈ left, value.toNat < 2 ^ 5 :=
        fun other hOther =>
          hLeft other (List.mem_append_left _ hOther)
      have hRightOld : ∀ value ∈ others, value.toNat < 2 ^ 5 :=
        fun other hOther =>
          hRight other (List.mem_append_left _ hOther)
      have hValue := hLeft value
        (List.mem_append_right _ (List.mem_singleton_self _))
      have hOther := hRight other
        (List.mem_append_right _ (List.mem_singleton_self _))
      have hRoom : 2 ^ (5 * left.length) ≤ 2 ^ 25 :=
        Nat.pow_le_pow_right (by decide) (by omega)
      have hUpper := Nat.lt_of_lt_of_le
        (toNat_run_lt (by omega) hLeftOld) hRoom
      have hAlso := Nat.lt_of_lt_of_le
        (toNat_run_lt (by omega) hRightOld)
        (hLength ▸ hRoom)
      have hNat := congrArg
        (fun state : Remainder => state.word.toNat) hSame
      rw [toNat_run_concat hUpper hValue,
        toNat_run_concat hAlso hOther] at hNat
      have hOld := ih hLength (by omega) hLeftOld hRightOld
        (Remainder.ext (UInt32.toNat_inj.mp (by omega)))
      have hLast : value = other :=
        UInt8.toNat_inj.mp (by omega)
      rw [hOld, hLast]

/- The six values that are checked are the ones written. -/
theorem checksum_unique
    {hrpExpanded data5bit check : ByteVec}
    (hCheck :
      polyMod (hrpExpanded ++ data5bit ++ check) =
        bech32mConst)
    (hLength : check.length = 6)
    (hSmall : ∀ value ∈ check, value.toNat < 2 ^ 5) :
    check = computeChecksum5 hrpExpanded data5bit := by
  have hWritten := polyMod_checksum hrpExpanded data5bit
  rw [← hCheck, polyMod_eq_run, polyMod_eq_run] at hWritten
  simp only [List.map_append] at hWritten
  have hComputed :
      (computeChecksum5 hrpExpanded data5bit).length = 6 := by
    rw [computeChecksum5, List.length_map, List.length_range]
  refine run_values_injective (by rw [hLength, hComputed])
    (Nat.le_of_eq hLength) hSmall ?_ ?_
  · intro value hValue
    rcases List.mem_map.mp hValue with ⟨place, -, rfl⟩
    rw [toNat_checksumValue]
    exact Nat.mod_lt _ (by decide)
  · exact (run_suffix unitRemainder _
      (by rw [List.length_map, List.length_map, hLength,
        hComputed])
      (Remainder.ext hWritten)).symm

end Wallet

end Amarian
