import Mathlib.Tactic.Common
import Amarian.Lib.BitStream
import Amarian.Wallet.Address

/-
  Bytes as groups of five bits, and back.

  Both directions keep the bits that are not written yet in the
  low end of a buffer and count them.

  Key definitions include:
    * `convert8To5`

  Key theorems include:
    * `regroup8To5_stream`
    * `regroup5To8_stream`
    * `convert5To8_convert8To5`
    * `convert8To5_convert5To8`
-/

------------------------------------------------------------
-- Writing Groups
------------------------------------------------------------

namespace Amarian

namespace Wallet

open BitStream

/- The inner loop: the groups that are complete, and how many
   bits are left. -/
def drainGroups
    (buffer : UInt32) : Nat → ByteVec × Nat
  | bits + 5 =>
      let (groups, left) := drainGroups buffer bits
      (((buffer >>> UInt32.ofNat bits) &&& 0x1F).toUInt8 ::
        groups, left)
  | bits => ([], bits)

/- What is left at the end is filled up with zeros. -/
def regroup8To5 :
    ByteVec → UInt32 → Nat → ByteVec
  | [], buffer, bits =>
      if bits > 0 then
        [((buffer <<< UInt32.ofNat (5 - bits)) &&&
          0x1F).toUInt8]
      else
        []
  | byte :: rest, buffer, bits =>
      let buffer := (buffer <<< 8) ||| byte.toUInt32
      let (groups, left) := drainGroups buffer (bits + 8)
      groups ++ regroup8To5 rest buffer left

def convert8To5
    (data : ByteVec) : ByteVec :=
  regroup8To5 data 0 0

------------------------------------------------------------
-- The Buffer
------------------------------------------------------------

theorem toNat_ofNat_small
    {bits : Nat}
    (hBits : bits < 32) :
    (UInt32.ofNat bits).toNat % 32 = bits := by
  rw [UInt32.toNat_ofNat']
  omega

theorem testBit_low5
    (place : Nat) :
    Nat.testBit 31 place = decide (place < 5) := by
  rw [show (31 : Nat) = 2 ^ 5 - 1 from rfl,
    Nat.testBit_two_pow_sub_one]

/- The group above the lowest `bits` bits. -/
theorem bitsOf_group
    (buffer : UInt32)
    {bits : Nat}
    (hBits : bits < 32) :
    bitsOf 5
        ((buffer >>> UInt32.ofNat bits) &&&
          0x1F).toUInt8.toNat =
      bitsOf 5 (buffer.toNat >>> bits) := by
  apply bitsOf_congr
  intro place hPlace
  rw [UInt32.toNat_toUInt8, UInt32.toNat_and,
    UInt32.toNat_shiftRight, toNat_ofNat_small hBits,
    Nat.testBit_mod_two_pow, Nat.testBit_and]
  have hIn : Nat.testBit (UInt32.toNat 0x1F) place = true := by
    rw [show UInt32.toNat 0x1F = 31 from rfl, testBit_low5]
    exact decide_eq_true hPlace
  rw [hIn, Bool.and_true,
    decide_eq_true (show place < 8 by omega), Bool.true_and]

theorem group_lt
    (word : UInt32) :
    (word &&& 0x1F).toUInt8.toNat < 2 ^ 5 := by
  rw [UInt32.toNat_toUInt8, UInt32.toNat_and]
  have hLow : word.toNat &&& UInt32.toNat 0x1F < 2 ^ 5 :=
    Nat.and_lt_two_pow _ (by decide)
  exact (Nat.mod_le _ _).trans_lt hLow

/- The byte above the lowest `bits` bits. -/
theorem bitsOf_byte
    (buffer : UInt32)
    {bits : Nat}
    (hBits : bits < 32) :
    bitsOf 8 (buffer >>> UInt32.ofNat bits).toUInt8.toNat =
      bitsOf 8 (buffer.toNat >>> bits) := by
  apply bitsOf_congr
  intro place hPlace
  rw [UInt32.toNat_toUInt8, UInt32.toNat_shiftRight,
    toNat_ofNat_small hBits, Nat.testBit_mod_two_pow,
    decide_eq_true hPlace, Bool.true_and]

/- The last group: the bits that are left, then zeros. -/
theorem bitsOf_lastGroup
    (buffer : UInt32)
    {bits : Nat}
    (hBits : bits ≤ 5) :
    bitsOf 5
        ((buffer <<< UInt32.ofNat (5 - bits)) &&&
          0x1F).toUInt8.toNat =
      bitsOf bits buffer.toNat ++
        List.replicate (5 - bits) false := by
  have hWord (place : Nat)
      (hPlace : place < 5) :
      ((buffer <<< UInt32.ofNat (5 - bits)) &&&
          0x1F).toUInt8.toNat.testBit place =
        (buffer.toNat <<< (5 - bits)).testBit place := by
    have hIn :
        Nat.testBit (UInt32.toNat 0x1F) place = true := by
      rw [show UInt32.toNat 0x1F = 31 from rfl, testBit_low5]
      exact decide_eq_true hPlace
    rw [UInt32.toNat_toUInt8, UInt32.toNat_and,
      UInt32.toNat_shiftLeft,
      toNat_ofNat_small (show 5 - bits < 32 by omega),
      Nat.testBit_mod_two_pow, Nat.testBit_and, hIn,
      Nat.testBit_mod_two_pow,
      decide_eq_true (show place < 8 by omega),
      decide_eq_true (show place < 32 by omega),
      Bool.true_and, Bool.true_and, Bool.and_true]
  have hWidth : bits + (5 - bits) = 5 := by omega
  have hJoined := @bitsOf_joined bits (5 - bits)
    buffer.toNat 0
    ((buffer <<< UInt32.ofNat (5 - bits)) &&&
      0x1F).toUInt8.toNat
    (fun place hPlace => by
      rw [hWord _ (by omega), Nat.testBit_shiftLeft,
        decide_eq_true
          (show 5 - bits + place ≥ 5 - bits by omega),
        Bool.true_and, Nat.add_sub_cancel_left])
    (fun place hPlace => by
      rw [hWord _ (by omega), Nat.testBit_shiftLeft,
        decide_eq_false (show ¬ place ≥ 5 - bits by omega),
        Bool.false_and, Nat.zero_testBit])
  rw [hWidth, bitsOf_zero] at hJoined
  exact hJoined

/- A value that is shifted in stands below what was there. -/
theorem bitsOf_shiftedIn
    (buffer : UInt32)
    (value : UInt8)
    {width bits : Nat}
    (hValue : value.toNat < 2 ^ width)
    (hWidth : bits + width ≤ 32)
    (hBelow : width < 32) :
    bitsOf (bits + width)
        ((buffer <<< UInt32.ofNat width) |||
          value.toUInt32).toNat =
      bitsOf bits buffer.toNat ++
        bitsOf width value.toNat := by
  have hWord :
      ((buffer <<< UInt32.ofNat width) |||
          value.toUInt32).toNat =
        (buffer.toNat <<< width) % 2 ^ 32 |||
          value.toNat := by
    rw [UInt32.toNat_or, UInt32.toNat_shiftLeft,
      toNat_ofNat_small hBelow, UInt8.toNat_toUInt32]
  rw [hWord]
  apply bitsOf_joined
  · intro place hPlace
    have hHigh : value.toNat.testBit (width + place) = false :=
      Nat.testBit_lt_two_pow
        (hValue.trans_le
          (Nat.pow_le_pow_right (by decide) (by omega)))
    rw [Nat.testBit_or, hHigh, Bool.or_false,
      Nat.testBit_mod_two_pow, Nat.testBit_shiftLeft,
      decide_eq_true (show width + place < 32 by omega),
      decide_eq_true (show width + place ≥ width by omega),
      Bool.true_and, Bool.true_and, Nat.add_sub_cancel_left]
  · intro place hPlace
    have hLow :
        (buffer.toNat <<< width).testBit place = false := by
      rw [Nat.testBit_shiftLeft,
        decide_eq_false (show ¬ place ≥ width by omega),
        Bool.false_and]
    rw [Nat.testBit_or, Nat.testBit_mod_two_pow, hLow,
      Bool.and_false, Bool.false_or]

------------------------------------------------------------
-- Streams
------------------------------------------------------------

def numbers
    (values : ByteVec) : List Nat :=
  values.map UInt8.toNat

theorem stream_numbers_cons
    (width : Nat)
    (value : UInt8)
    (values : ByteVec) :
    stream width (numbers (value :: values)) =
      bitsOf width value.toNat ++
        stream width (numbers values) :=
  stream_cons width value.toNat (numbers values)

theorem numbers_injective
    {left right : ByteVec}
    (hSame : numbers left = numbers right) :
    left = right :=
  List.map_injective_iff.mpr
    (fun _ _ hNat => UInt8.toNat_inj.mp hNat) hSame

theorem drainGroups_stream
    (buffer : UInt32)
    {bits : Nat}
    (hBits : bits < 32) :
    bitsOf bits buffer.toNat =
        stream 5 (numbers (drainGroups buffer bits).1) ++
          bitsOf (drainGroups buffer bits).2 buffer.toNat ∧
      (drainGroups buffer bits).2 < 5 ∧
      ∀ group ∈ (drainGroups buffer bits).1,
        group.toNat < 2 ^ 5 := by
  fun_induction drainGroups buffer bits with
  | case1 bits groups left hDrained hRest =>
      rw [hDrained] at hRest
      rcases hRest (by omega) with ⟨hStream, hLeft, hGroups⟩
      refine ⟨?_, hLeft, ?_⟩
      · have hGroup := bitsOf_group buffer
          (show bits < 32 by omega)
        have hSplit :
            bitsOf (bits + 5) buffer.toNat =
              bitsOf 5 (buffer.toNat >>> bits) ++
                bitsOf bits buffer.toNat := by
          rw [Nat.add_comm, bitsOf_add]
        calc
          _ = bitsOf 5 (buffer.toNat >>> bits) ++
                bitsOf bits buffer.toNat := hSplit
          _ = _ := by
            rw [stream_numbers_cons, hGroup, hStream,
              List.append_assoc]
      · intro group hGroup
        rcases List.mem_cons.mp hGroup with rfl | hOther
        · exact group_lt _
        · exact hGroups group hOther
  | case2 bits hFew =>
      refine ⟨rfl, ?_, ?_⟩
      · by_contra hMany
        exact hFew (bits - 5) (by omega)
      · intro group hGroup
        cases hGroup

/- What the loop writes: the bits that it held, those of the
   bytes, and fewer zeros than make a group. -/
theorem regroup8To5_stream
    (data : ByteVec)
    (buffer : UInt32)
    {bits : Nat}
    (hBits : bits < 5) :
    ∃ padding < 5,
      stream 5 (numbers (regroup8To5 data buffer bits)) =
        bitsOf bits buffer.toNat ++
          stream 8 (numbers data) ++
          List.replicate padding false := by
  induction data generalizing buffer bits with
  | nil =>
      rcases Nat.eq_zero_or_pos bits with rfl | hSome
      · exact ⟨0, by decide, rfl⟩
      · refine ⟨5 - bits, by omega, ?_⟩
        rw [regroup8To5, if_pos hSome, stream_numbers_cons,
          bitsOf_lastGroup buffer (by omega)]
        simp [numbers]
  | cons byte rest hRest =>
      have hJoined := bitsOf_shiftedIn buffer byte
        byte.toNat_lt (show bits + 8 ≤ 32 by omega)
        (by decide)
      rcases drainGroups_stream
          ((buffer <<< 8) ||| byte.toUInt32)
          (show bits + 8 < 32 by omega) with
        ⟨hDrained, hLeft, _⟩
      rcases hRest ((buffer <<< 8) ||| byte.toUInt32) hLeft with
        ⟨padding, hPadding, hStream⟩
      refine ⟨padding, hPadding, ?_⟩
      have hBuffer :
          buffer <<< UInt32.ofNat 8 = buffer <<< 8 := rfl
      rw [hBuffer] at hJoined
      calc
        _ = stream 5
                (numbers (drainGroups
                  ((buffer <<< 8) ||| byte.toUInt32)
                  (bits + 8)).1) ++
              stream 5
                (numbers (regroup8To5 rest
                  ((buffer <<< 8) ||| byte.toUInt32)
                  (drainGroups
                    ((buffer <<< 8) ||| byte.toUInt32)
                    (bits + 8)).2)) := by
          rw [regroup8To5, numbers, List.map_append,
            stream_append]
          rfl
        _ = bitsOf (bits + 8)
                ((buffer <<< 8) ||| byte.toUInt32).toNat ++
              stream 8 (numbers rest) ++
              List.replicate padding false := by
          rw [hStream, hDrained]
          simp only [List.append_assoc]
        _ = _ := by
          rw [hJoined, stream_numbers_cons]
          simp only [List.append_assoc]

theorem regroup8To5_lt
    (data : ByteVec)
    (buffer : UInt32)
    {bits : Nat}
    (hBits : bits < 5) :
    ∀ group ∈ regroup8To5 data buffer bits,
      group.toNat < 2 ^ 5 := by
  induction data generalizing buffer bits with
  | nil =>
      intro group hGroup
      rw [regroup8To5] at hGroup
      split at hGroup
      · rw [List.mem_singleton.mp hGroup]
        exact group_lt _
      · cases hGroup
  | cons byte rest hRest =>
      intro group hGroup
      rcases drainGroups_stream
          ((buffer <<< 8) ||| byte.toUInt32)
          (show bits + 8 < 32 by omega) with
        ⟨_, hLeft, hGroups⟩
      rcases List.mem_append.mp hGroup with hHere | hLater
      · exact hGroups group hHere
      · exact hRest _ hLeft group hLater

------------------------------------------------------------
-- Reading Groups
------------------------------------------------------------

/- The bytes and the bits that are left are what was held and
   what the groups brought. -/
theorem regroup5To8_stream
    (values : ByteVec)
    (buffer : UInt32)
    {bits : Nat}
    (hBits : bits < 8)
    (hValues : ∀ value ∈ values, value.toNat < 2 ^ 5) :
    ∃ bytes last left,
      regroup5To8 values buffer bits =
          some (bytes, last, left) ∧
        left < 8 ∧
        bitsOf bits buffer.toNat ++
            stream 5 (numbers values) =
          stream 8 (numbers bytes) ++
            bitsOf left last.toNat := by
  induction values generalizing buffer bits with
  | nil =>
      refine ⟨[], buffer, bits, rfl, hBits, ?_⟩
      simp [numbers]
  | cons value rest hRest =>
      have hValue := hValues value List.mem_cons_self
      have hOthers : ∀ other ∈ rest, other.toNat < 2 ^ 5 :=
        fun other hOther =>
          hValues other (List.mem_cons_of_mem _ hOther)
      have hSmall : ¬ value > 31 := by
        intro hLarge
        have hLargeNat := UInt8.lt_iff_toNat_lt.mp hLarge
        have hNumber : UInt8.toNat 31 = 31 := rfl
        omega
      have hJoined := bitsOf_shiftedIn buffer value hValue
        (show bits + 5 ≤ 32 by omega) (by decide)
      have hBuffer :
          buffer <<< UInt32.ofNat 5 = buffer <<< 5 := rfl
      rw [hBuffer] at hJoined
      have hHeld :
          bitsOf bits buffer.toNat ++
              stream 5 (numbers (value :: rest)) =
            bitsOf (bits + 5)
                ((buffer <<< 5) ||| value.toUInt32).toNat ++
              stream 5 (numbers rest) := by
        rw [hJoined, stream_numbers_cons, List.append_assoc]
      rw [regroup5To8, if_neg hSmall]
      dsimp only
      by_cases hByte : bits + 5 ≥ 8
      · rcases hRest ((buffer <<< 5) ||| value.toUInt32)
            (show bits + 5 - 8 < 8 by omega) hOthers with
          ⟨bytes, last, left, hRead, hLeft, hStream⟩
        rw [if_pos hByte, hRead]
        refine ⟨_, last, left, rfl, hLeft, ?_⟩
        have hSplit :
            bitsOf (bits + 5)
                ((buffer <<< 5) ||| value.toUInt32).toNat =
              bitsOf 8
                (((buffer <<< 5) ||| value.toUInt32).toNat >>>
                  (bits + 5 - 8)) ++
                bitsOf (bits + 5 - 8)
                  ((buffer <<< 5) |||
                    value.toUInt32).toNat := by
          rw [← bitsOf_add]
          congr 1
          omega
        rw [hHeld, hSplit, List.append_assoc, hStream,
          ← bitsOf_byte _ (show bits + 5 - 8 < 32 by omega),
          stream_numbers_cons, List.append_assoc]
      · rcases hRest ((buffer <<< 5) ||| value.toUInt32)
            (show bits + 5 < 8 by omega) hOthers with
          ⟨bytes, last, left, hRead, hLeft, hStream⟩
        rw [if_neg hByte, hRead]
        exact ⟨bytes, last, left, rfl, hLeft,
          hHeld.trans hStream⟩

/- Bits that are all clear leave nothing above the buffer. -/
theorem leftover_clear
    {last : UInt32}
    {left : Nat}
    (hLeft : left < 8)
    (hClear : bitsOf left last.toNat =
      List.replicate left false) :
    (last <<< UInt32.ofNat (8 - left)) &&& 0xFF = 0 := by
  apply UInt32.toNat_inj.mp
  apply Nat.eq_of_testBit_eq
  intro place
  rw [UInt32.toNat_and, UInt32.toNat_shiftLeft,
    toNat_ofNat_small (show 8 - left < 32 by omega),
    Nat.testBit_and, Nat.testBit_mod_two_pow,
    Nat.testBit_shiftLeft, UInt32.toNat_zero,
    Nat.zero_testBit]
  by_cases hHeld : place ≥ 8 - left ∧ place < 8
  · have hReplicate : bitsOf left last.toNat =
        bitsOf left 0 := by
      rw [hClear, bitsOf_zero]
    have hBit := testBit_of_bitsOf hReplicate
      (place - (8 - left)) (by omega)
    rw [hBit, Nat.zero_testBit, Bool.and_false,
      Bool.and_false, Bool.false_and]
  · rcases not_and_or.mp hHeld with hBelow | hAbove
    · rw [decide_eq_false hBelow, Bool.false_and,
        Bool.and_false, Bool.false_and]
    · have hOut : Nat.testBit (UInt32.toNat 0xFF) place =
          false := by
        rw [show UInt32.toNat 0xFF = 2 ^ 8 - 1 from rfl,
          Nat.testBit_two_pow_sub_one]
        exact decide_eq_false hAbove
      rw [hOut, Bool.and_false]

theorem numbers_lt
    (values : ByteVec) :
    ∀ word ∈ numbers values, word < 2 ^ 8 := by
  intro word hWord
  rcases List.mem_map.mp hWord with ⟨value, _, rfl⟩
  exact value.toNat_lt

/- What is read back is what was written, and nothing but
   zeros is left over. -/
theorem convert5To8_convert8To5
    (data : ByteVec) :
    convert5To8 (convert8To5 data) data.length =
      some data := by
  rcases regroup8To5_stream data 0
      (show 0 < 5 by decide) with
    ⟨padding, hPadding, hWritten⟩
  rcases regroup5To8_stream (convert8To5 data) 0
      (show 0 < 8 by decide)
      (regroup8To5_lt data 0 (show 0 < 5 by decide)) with
    ⟨bytes, last, left, hRead, hLeft, hStream⟩
  have hSame :
      stream 8 (numbers bytes) ++ bitsOf left last.toNat =
        stream 8 (numbers data) ++
          List.replicate padding false := by
    rw [← hStream]
    exact hWritten
  rcases stream_unique (numbers_lt bytes) (numbers_lt data)
      (by rw [length_bitsOf]; exact hLeft)
      (by rw [List.length_replicate]; omega) hSame with
    ⟨hBytes, hRest⟩
  have hData : bytes = data := numbers_injective hBytes
  have hCount : left = padding := by
    have hLengths := congrArg List.length hRest
    rw [length_bitsOf, List.length_replicate] at hLengths
    exact hLengths
  have hClear :
      (last <<< UInt32.ofNat (8 - left)) &&& 0xFF = 0 :=
    leftover_clear hLeft (by rw [hRest, hCount])
  have hKept : ¬ (left ≥ 5 ∨
      (left > 0 ∧
        (last <<< UInt32.ofNat (8 - left)) &&& 0xFF ≠ 0)) := by
    rintro (hMany | ⟨_, hSet⟩)
    · omega
    · exact hSet hClear
  unfold convert5To8
  rw [hRead]
  dsimp only
  rw [if_neg hKept, hData]
  exact if_neg (not_not_intro rfl)

/- As many groups as hold the bits. -/
theorem length_convert8To5
    (data : ByteVec) :
    ∃ padding < 5,
      5 * (convert8To5 data).length =
        8 * data.length + padding := by
  rcases regroup8To5_stream data 0
      (show 0 < 5 by decide) with
    ⟨padding, hPadding, hWritten⟩
  refine ⟨padding, hPadding, ?_⟩
  have hLengths := congrArg List.length hWritten
  simp only [List.length_append, length_stream, length_bitsOf,
    List.length_replicate, numbers, List.length_map,
    Nat.zero_add] at hLengths
  exact hLengths

/- Nothing above the buffer leaves bits that are clear. -/
theorem clear_of_leftover
    {last : UInt32}
    {left : Nat}
    (hLeft : left < 8)
    (hZero :
      (last <<< UInt32.ofNat (8 - left)) &&& 0xFF = 0) :
    bitsOf left last.toNat = List.replicate left false := by
  rw [← bitsOf_zero]
  apply bitsOf_congr
  intro place hPlace
  have hBit := congrArg
    (fun word : UInt32 =>
      word.toNat.testBit (place + (8 - left))) hZero
  have hMask :
      Nat.testBit (UInt32.toNat 0xFF) (place + (8 - left)) =
        true := by
    rw [show UInt32.toNat 0xFF = 2 ^ 8 - 1 from rfl,
      Nat.testBit_two_pow_sub_one]
    exact decide_eq_true (by omega)
  rw [UInt32.toNat_and, UInt32.toNat_shiftLeft,
    toNat_ofNat_small (show 8 - left < 32 by omega),
    Nat.testBit_and, hMask, Bool.and_true,
    Nat.testBit_mod_two_pow, Nat.testBit_shiftLeft,
    Nat.add_sub_cancel,
    decide_eq_true
      (show place + (8 - left) < 32 by omega),
    decide_eq_true
      (show place + (8 - left) ≥ 8 - left by omega),
    Bool.true_and, Bool.true_and, UInt32.toNat_zero,
    Nat.zero_testBit] at hBit
  rw [hBit, Nat.zero_testBit]

/- What is written is what was read, padding included. -/
theorem convert8To5_convert5To8
    {groups bytes : ByteVec}
    {count : Nat}
    (hGroups : ∀ group ∈ groups, group.toNat < 2 ^ 5)
    (hRead : convert5To8 groups count = some bytes) :
    convert8To5 bytes = groups := by
  rcases regroup5To8_stream groups 0
      (show 0 < 8 by decide) hGroups with
    ⟨found, last, left, hFound, hLeft, hStream⟩
  unfold convert5To8 at hRead
  rw [hFound] at hRead
  dsimp only at hRead
  split at hRead
  · cases hRead
  rename_i hFine
  split at hRead
  · cases hRead
  cases hRead
  rw [not_or, not_and] at hFine
  have hClear :
      bitsOf left last.toNat = List.replicate left false := by
    rcases Nat.eq_zero_or_pos left with rfl | hSome
    · rfl
    · exact clear_of_leftover hLeft
        (of_not_not (hFine.2 hSome))
  rcases regroup8To5_stream bytes 0
      (show 0 < 5 by decide) with
    ⟨padding, hPadding, hWritten⟩
  change stream 5 (numbers (convert8To5 bytes)) =
    stream 8 (numbers bytes) ++
      List.replicate padding false at hWritten
  change stream 5 (numbers groups) = _ at hStream
  have hFew : left < 5 := Nat.lt_of_not_le hFine.1
  have hSame : padding = left := by
    have hFirst := congrArg List.length hWritten
    have hSecond := congrArg List.length hStream
    simp only [List.length_append, length_stream,
      List.length_replicate, length_bitsOf]
      at hFirst hSecond
    omega
  rw [hSame, ← hClear, ← hStream] at hWritten
  have hBoth : stream 5 (numbers (convert8To5 bytes)) ++ [] =
      stream 5 (numbers groups) ++ [] :=
    congrArg (· ++ []) hWritten
  have hNumbers : ∀ {words : ByteVec},
      (∀ word ∈ words, word.toNat < 2 ^ 5) →
        ∀ number ∈ numbers words, number < 2 ^ 5 := by
    intro words hWords number hNumber
    rcases List.mem_map.mp hNumber with ⟨word, hWord, rfl⟩
    exact hWords word hWord
  exact numbers_injective
    (stream_unique
      (hNumbers (regroup8To5_lt bytes 0 (by decide)))
      (hNumbers hGroups) (by decide) (by decide) hBoth).1

end Wallet

end Amarian
