import Mathlib.Data.Nat.Bitwise
import Mathlib.Tactic.Common

/-
  Bytes as a row of bits, the most significant bit of every
  byte first, and the row cut in groups of one width.

  Key definitions include:
    * `BitField.getBit`
    * `BitField.readGroup`
    * `BitField.writeGroups`

  Key theorems include:
    * `BitField.ext_getBit`
    * `BitField.testBit_readGroup`
    * `BitField.getBit_writeGroups`
-/

------------------------------------------------------------
-- Bits
------------------------------------------------------------

namespace BitField

/- Bits count from the high end of each byte. -/
def getBit
    (bytes : List UInt8)
    (offset : Nat) : Bool :=
  (bytes.getD (offset / 8) 0).toNat.testBit (7 - offset % 8)

/- Sets one bit and leaves the others. -/
def setBit
    (bytes : List UInt8)
    (offset : Nat) : List UInt8 :=
  bytes.modify (offset / 8)
    (· ||| UInt8.ofNat (1 <<< (7 - offset % 8)))

@[simp] theorem length_setBit
    (bytes : List UInt8)
    (offset : Nat) :
    (setBit bytes offset).length = bytes.length :=
  List.length_modify ..

theorem toNat_mask
    {place : Nat}
    (hPlace : place < 8) :
    (UInt8.ofNat (1 <<< place)).toNat = 2 ^ place := by
  rw [Nat.one_shiftLeft]
  refine UInt8.toNat_ofNat_of_lt' ?_
  exact Nat.pow_lt_pow_right (by decide) hPlace

/- One bit is set, and the others are as they were. -/
theorem getBit_setBit
    {bytes : List UInt8}
    {offset : Nat}
    (hOffset : offset < 8 * bytes.length)
    (other : Nat) :
    getBit (setBit bytes offset) other =
      (decide (other = offset) || getBit bytes other) := by
  have hByte : offset / 8 < bytes.length := by
    omega
  unfold getBit setBit
  rw [List.getD_eq_getElem?_getD, List.getElem?_modify,
    List.getD_eq_getElem?_getD]
  by_cases hSame : offset / 8 = other / 8
  · simp only [hSame, if_true]
    rw [← hSame, List.getElem?_eq_getElem hByte,
      Option.map_eq_map, Option.map_some, Option.getD_some,
      Option.getD_some, UInt8.toNat_or, Nat.testBit_or,
      toNat_mask (by omega), Nat.testBit_two_pow,
      Bool.or_comm]
    refine congrArg (· || _) (decide_eq_decide.mpr ?_)
    omega
  · simp only [hSame, if_false]
    rw [Option.map_eq_map, Option.map_id']
    have hOther : other ≠ offset := by
      rintro rfl
      exact hSame rfl
    rw [decide_eq_false hOther, Bool.false_or]

theorem getBit_replicate
    (count offset : Nat) :
    getBit (List.replicate count 0) offset = false := by
  unfold getBit
  rw [List.getD_eq_getElem?_getD, List.getElem?_replicate]
  split
  · exact Nat.zero_testBit _
  · exact Nat.zero_testBit _

theorem getBit_append
    {bytes rest : List UInt8}
    {offset : Nat}
    (hOffset : offset < 8 * bytes.length) :
    getBit (bytes ++ rest) offset = getBit bytes offset := by
  unfold getBit
  rw [List.getD_append _ _ _ _ (by omega)]

/- Bytes are determined by their bits. -/
theorem ext_getBit
    {first second : List UInt8}
    (hLength : first.length = second.length)
    (hSame :
      ∀ offset, offset < 8 * first.length →
        getBit first offset = getBit second offset) :
    first = second := by
  refine List.ext_getElem hLength ?_
  intro index hFirst hSecond
  refine UInt8.toNat_inj.mp (Nat.eq_of_testBit_eq ?_)
  intro bit
  by_cases hBit : bit < 8
  · have hHere := hSame (8 * index + (7 - bit)) (by omega)
    have hIndex : (8 * index + (7 - bit)) / 8 = index := by
      omega
    have hPlace : 7 - (8 * index + (7 - bit)) % 8 = bit := by
      omega
    unfold getBit at hHere
    rw [hIndex, hPlace, List.getD_eq_getElem _ _ hFirst,
      List.getD_eq_getElem _ _ hSecond] at hHere
    exact hHere
  · have hSmall : ∀ byte : UInt8,
        byte.toNat.testBit bit = false := by
      intro byte
      refine Nat.testBit_lt_two_pow ?_
      have hPower : 2 ^ 8 ≤ 2 ^ bit :=
        Nat.pow_le_pow_right (by decide) (by omega)
      have hByte := byte.toNat_lt
      omega
    rw [hSmall, hSmall]

------------------------------------------------------------
-- Groups
------------------------------------------------------------

variable {width : Nat}

/- The number that a group of bits is. -/
def readGroup
    (width : Nat)
    (bytes : List UInt8)
    (index : Nat) : Nat :=
  (List.range width).foldl
    (fun value bit =>
      (value <<< 1) |||
        (getBit bytes (index * width + bit)).toNat)
    0

/- Bits are only ever set here, never cleared. -/
def writeGroup
    (width : Nat)
    (bytes : List UInt8)
    (index value : Nat) : List UInt8 :=
  (List.range width).foldl
    (fun bytes bit =>
      if value.testBit (width - 1 - bit) then
        setBit bytes (index * width + bit)
      else
        bytes)
    bytes

/- Groups of equal width, one after the other. -/
def writeGroups
    (width : Nat) :
    List UInt8 → Nat → List Nat → List UInt8
  | bytes, _, [] => bytes
  | bytes, index, value :: values =>
      writeGroups width (writeGroup width bytes index value)
        (index + 1) values

/- By induction on the bits that have been read. -/
theorem testBit_readGroup
    (bytes : List UInt8)
    (index bit : Nat) :
    (readGroup width bytes index).testBit bit =
      (decide (bit < width) &&
        getBit bytes (index * width + (width - 1 - bit))) := by
  have hPrefix : ∀ count,
      ((List.range count).foldl
          (fun value bit =>
            (value <<< 1) |||
              (getBit bytes (index * width + bit)).toNat)
          0).testBit bit =
        (decide (bit < count) &&
          getBit bytes
            (index * width + (count - 1 - bit))) := by
    intro count
    induction count generalizing bit with
    | zero => exact Nat.zero_testBit _
    | succ count ih =>
        rw [List.range_succ, List.foldl_append,
          List.foldl_cons, List.foldl_nil, Nat.testBit_or,
          Nat.testBit_shiftLeft, Nat.testBit_bool_toNat]
        rcases bit with _ | bit
        · rw [Nat.add_sub_cancel, Nat.sub_zero]
          simp
        · have hPlace :
              count + 1 - 1 - (bit + 1) = count - 1 - bit := by
            omega
          rw [Nat.add_sub_cancel, ih, hPlace]
          simp
  exact hPrefix width

theorem readGroup_lt
    (bytes : List UInt8)
    (index : Nat) :
    readGroup width bytes index < 2 ^ width := by
  refine Nat.lt_pow_two_of_testBit _ ?_
  intro bit hBit
  rw [testBit_readGroup, decide_eq_false (by omega),
    Bool.false_and]

@[simp] theorem length_writeGroup
    (bytes : List UInt8)
    (index value : Nat) :
    (writeGroup width bytes index value).length =
      bytes.length := by
  unfold writeGroup
  generalize List.range width = bits
  induction bits generalizing bytes with
  | nil => rfl
  | cons bit bits ih =>
      rw [List.foldl_cons, ih]
      split
      · exact length_setBit _ _
      · rfl

@[simp] theorem length_writeGroups
    (bytes : List UInt8)
    (index : Nat)
    (values : List Nat) :
    (writeGroups width bytes index values).length =
      bytes.length := by
  induction values generalizing bytes index with
  | nil => rfl
  | cons value values ih =>
      rw [writeGroups, ih, length_writeGroup]

/- By induction on the bits that have been written. -/
theorem getBit_writeGroup
    {bytes : List UInt8}
    {index : Nat}
    (hFits : (index + 1) * width ≤ 8 * bytes.length)
    (hWidth : 0 < width)
    (value other : Nat) :
    getBit (writeGroup width bytes index value) other =
      (getBit bytes other ||
        (decide (other / width = index) &&
          value.testBit (width - 1 - other % width))) := by
  have hPrefix : ∀ count ≤ width,
      let written :=
        (List.range count).foldl
          (fun bytes bit =>
            if value.testBit (width - 1 - bit) then
              setBit bytes (index * width + bit)
            else
              bytes)
          bytes
      written.length = bytes.length ∧
        getBit written other =
          (getBit bytes other ||
            (decide
                (other / width = index ∧
                  other % width < count) &&
              value.testBit (width - 1 - other % width))) := by
    intro count hCount
    induction count with
    | zero =>
        refine ⟨rfl, ?_⟩
        simp
    | succ count ih =>
        rcases ih (by omega) with ⟨hLength, hBit⟩
        rw [Nat.succ_mul] at hFits
        have hHere :
            other = index * width + count ↔
              other / width = index ∧
                other % width = count := by
          have hParts := Nat.div_add_mod other width
          have hLess := Nat.mod_lt other hWidth
          constructor
          · rintro rfl
            rw [Nat.mul_comm, Nat.mul_add_div hWidth,
              Nat.div_eq_of_lt (by omega),
              Nat.mul_add_mod, Nat.mod_eq_of_lt (by omega)]
            exact ⟨Nat.add_zero _, rfl⟩
          · rintro ⟨hIndex, hPlace⟩
            rw [← hParts, hIndex, hPlace, Nat.mul_comm]
        dsimp only at hLength hBit ⊢
        rw [List.range_succ, List.foldl_append,
          List.foldl_cons, List.foldl_nil]
        split
        · rename_i hSet
          refine ⟨(length_setBit _ _).trans hLength, ?_⟩
          rw [getBit_setBit (by rw [hLength]; omega), hBit]
          grind
        · rename_i hClear
          refine ⟨hLength, ?_⟩
          rw [hBit]
          grind
  rcases hPrefix width (Nat.le_refl _) with ⟨-, hBit⟩
  have hLess := Nat.mod_lt other hWidth
  refine hBit.trans ?_
  simp only [hLess, and_true]

/- By induction on the groups. -/
theorem getBit_writeGroups
    {bytes : List UInt8}
    {index : Nat}
    {values : List Nat}
    (hFits :
      (index + values.length) * width ≤ 8 * bytes.length)
    (hWidth : 0 < width)
    (other : Nat) :
    getBit (writeGroups width bytes index values) other =
      (getBit bytes other ||
        (decide (index ≤ other / width) &&
          (values.getD (other / width - index) 0).testBit
            (width - 1 - other % width))) := by
  induction values generalizing bytes index with
  | nil => simp [writeGroups]
  | cons value values ih =>
      have hSame : index + 1 + values.length =
          index + (value :: values).length := by
        rw [List.length_cons]
        omega
      have hHere : (index + 1) * width ≤ 8 * bytes.length :=
        Nat.le_trans
          (Nat.mul_le_mul_right width (by
            rw [List.length_cons]
            omega))
          hFits
      rw [writeGroups, ih (by
          rw [length_writeGroup, hSame]
          exact hFits),
        getBit_writeGroup hHere hWidth]
      rcases Nat.lt_trichotomy (other / width) index with
        hBelow | hAt | hAbove
      · rw [decide_eq_false (by omega),
          decide_eq_false (by omega),
          decide_eq_false (by omega)]
        simp
      · rw [decide_eq_true hAt, decide_eq_false (by omega),
          decide_eq_true (by omega), hAt, Nat.sub_self]
        simp
      · have hNext : other / width - index =
            (other / width - (index + 1)) + 1 := by
          omega
        rw [decide_eq_false (by omega),
          decide_eq_true (by omega),
          decide_eq_true (by omega), hNext,
          List.getD_cons_succ]
        simp

end BitField
