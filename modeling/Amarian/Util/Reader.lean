import Amarian.Lib.Codec
import Amarian.Util.Bytes

/-
  The reading half of the canonical encoding.

  A `Reader` of the source is a cursor over a buffer with a
  sticky failure flag.  The model keeps the unread bytes and
  the flag, and each `Read*` method either answers a value or
  fails.

  Key definitions include:
    * `fromLittleEndian`
    * `readCompactSize`
    * `readByteString`
    * `readList`
    * `decodeWhole`

  Key theorems include:
    * `readByteString_canonical`
    * `readList_canonical`
-/

------------------------------------------------------------
-- Fixed Widths
------------------------------------------------------------

namespace Amarian

open Codec

/- What is left of the input, and whether a read failed. -/
abbrev ByteReader := Codec.Reader UInt8

/- The value of some bytes, least significant first. -/
def fromLittleEndian : ByteVec → Nat
  | [] => 0
  | byte :: bytes =>
      byte.toNat + 256 * fromLittleEndian bytes

@[simp] theorem length_littleEndian
    (width value : Nat) :
    (littleEndian width value).length = width := by
  induction width generalizing value with
  | zero => rfl
  | succ width ih => simp [littleEndian, ih]

theorem fromLittleEndian_lt
    (bytes : ByteVec) :
    fromLittleEndian bytes < 256 ^ bytes.length := by
  induction bytes with
  | nil => simp [fromLittleEndian]
  | cons byte bytes ih =>
      have hByte := byte.toNat_lt
      rw [fromLittleEndian, List.length_cons, Nat.pow_succ]
      omega

theorem fromLittleEndian_littleEndian
    {width value : Nat}
    (hValue : value < 256 ^ width) :
    fromLittleEndian (littleEndian width value) = value := by
  induction width generalizing value with
  | zero =>
      rw [Nat.pow_zero] at hValue
      simp [littleEndian, fromLittleEndian]
      omega
  | succ width ih =>
      rw [Nat.pow_succ] at hValue
      have hHigh : value / 256 < 256 ^ width := by omega
      rw [littleEndian, fromLittleEndian, ih hHigh,
        UInt8.toNat_ofNat']
      omega

theorem littleEndian_fromLittleEndian
    (bytes : ByteVec) :
    littleEndian bytes.length (fromLittleEndian bytes) =
      bytes := by
  induction bytes with
  | nil => rfl
  | cons byte bytes ih =>
      have hByte := byte.toNat_lt
      have hHigh :
          (byte.toNat + 256 * fromLittleEndian bytes) / 256 =
            fromLittleEndian bytes := by omega
      have hLow :
          UInt8.ofNat
              (byte.toNat + 256 * fromLittleEndian bytes) =
            byte := by
        apply UInt8.toNat_inj.mp
        rw [UInt8.toNat_ofNat']
        omega
      rw [List.length_cons, fromLittleEndian, littleEndian,
        hHigh, hLow, ih]

/- An integer of some bytes, the low one first. -/
def readLittleEndian
    (width : Nat) : Decoder UInt8 Nat := do
  let raw ← Decoder.consume width
  pure (fromLittleEndian raw)

theorem readLittleEndian_canonical
    (width : Nat) :
    Canonical (littleEndian width) (readLittleEndian width)
      fun value => value < 256 ^ width := by
  apply Canonical.map (Canonical.consume width)
  · rintro bytes rfl
    exact ⟨fromLittleEndian_lt bytes,
      littleEndian_fromLittleEndian bytes⟩
  · intro value hValue
    exact ⟨length_littleEndian width value,
      fromLittleEndian_littleEndian hValue⟩

/- A fixed width integer type over its value. -/
theorem readLittleEndian_map
    {α : Type}
    {width : Nat}
    {decode : Nat → α}
    {encode : α → Nat}
    (hBound : ∀ value, encode value < 256 ^ width)
    (hEncode : ∀ value, decode (encode value) = value)
    (hDecode :
      ∀ value, value < 256 ^ width →
        encode (decode value) = value) :
    Canonical (fun value => littleEndian width (encode value))
      (do
        let value ← readLittleEndian width
        pure (decode value))
      fun _ => True := by
  apply Canonical.map (readLittleEndian_canonical width)
  · intro value hValue
    exact ⟨trivial, hDecode value hValue⟩
  · intro value _
    exact ⟨hBound value, hEncode value⟩

/- One byte of the input. -/
def readU8 : Decoder UInt8 UInt8 := do
  let value ← readLittleEndian 1
  pure (UInt8.ofNat value)

/- Two bytes, the low one first. -/
def readU16 : Decoder UInt8 UInt16 := do
  let value ← readLittleEndian 2
  pure (UInt16.ofNat value)

/- Four bytes, the low one first. -/
def readU32 : Decoder UInt8 UInt32 := do
  let value ← readLittleEndian 4
  pure (UInt32.ofNat value)

/- Eight bytes, the low one first. -/
def readU64 : Decoder UInt8 UInt64 := do
  let value ← readLittleEndian 8
  pure (UInt64.ofNat value)

/- The two's complement is read back, any value of it. -/
def readI64 : Decoder UInt8 Int64 := do
  let raw ← readU64
  pure raw.toInt64

/- Thirty-two bytes in their own order. -/
def readHash256 : Decoder UInt8 Hash256 := do
  let raw ← Decoder.consume 32
  pure (Bytes32.ofList raw)

theorem readU8_canonical :
    Canonical writeU8 readU8 fun _ => True := by
  have hWrite :
      ∀ value : UInt8, True →
        writeU8 value = littleEndian 1 value.toNat := by
    intro value _
    simp [writeU8, littleEndian]
  apply Canonical.congr (fun _ => Iff.rfl) hWrite
  apply readLittleEndian_map
  · exact UInt8.toNat_lt
  · exact fun _ => UInt8.ofNat_toNat
  · exact fun _ => UInt8.toNat_ofNat_of_lt'

theorem readU16_canonical :
    Canonical writeU16 readU16 fun _ => True := by
  apply readLittleEndian_map
  · exact UInt16.toNat_lt
  · exact fun _ => UInt16.ofNat_toNat
  · exact fun _ => UInt16.toNat_ofNat_of_lt'

theorem readU32_canonical :
    Canonical writeU32 readU32 fun _ => True := by
  apply readLittleEndian_map
  · exact UInt32.toNat_lt
  · exact fun _ => UInt32.ofNat_toNat
  · exact fun _ => UInt32.toNat_ofNat_of_lt'

theorem readU64_canonical :
    Canonical writeU64 readU64 fun _ => True := by
  apply readLittleEndian_map
  · exact UInt64.toNat_lt
  · exact fun _ => UInt64.ofNat_toNat
  · exact fun _ => UInt64.toNat_ofNat_of_lt'

theorem readI64_canonical :
    Canonical writeI64 readI64 fun _ => True := by
  apply Canonical.map readU64_canonical
  · intro raw _
    exact ⟨trivial, UInt64.toUInt64_toInt64 raw⟩
  · intro value _
    exact ⟨trivial, Int64.toInt64_toUInt64 value⟩

theorem readHash256_canonical :
    Canonical writeHash256 readHash256 fun _ => True := by
  apply Canonical.map (Canonical.consume 32)
  · intro raw hRaw
    refine ⟨trivial, ?_⟩
    change (raw ++ List.replicate 32 0).take 32 = raw
    rw [← hRaw, List.take_left]
  · intro hash _
    refine ⟨hash.size_eq, ?_⟩
    apply Bytes32.ext
    change (hash.bytes ++ List.replicate 32 0).take 32 = _
    rw [← hash.size_eq, List.take_left]

------------------------------------------------------------
-- Counts
------------------------------------------------------------

/- A wide form holds only what no shorter form could. -/
def readWide
    (width least : Nat) : Decoder UInt8 Nat := do
  let wide ← readLittleEndian width
  if decide (wide < least) then Decoder.fail else pure wide

/- The tag of the canonical form selects the width. -/
def readTagged
    (tag : UInt8) : Decoder UInt8 Nat :=
  if tag < 0xFD then pure tag.toNat
  else if tag = 0xFD then readWide 2 0xFD
  else if tag = 0xFE then readWide 4 0x10000
  else readWide 8 0x100000000

/- A length, refused unless in its shortest form. -/
def readMinimal : Decoder UInt8 Nat := do
  let tag ← readU8
  readTagged tag

/-
  A count is refused unless that many elements of the least
  size could still follow.
-/
def readCompactSize
    (minElementBytes : Nat) : Decoder UInt8 Nat :=
  if minElementBytes = 0 then Decoder.fail
  else do
    let value ← readMinimal
    let left ← Decoder.remaining
    if left / minElementBytes < value then Decoder.fail
    else pure value

/- The first byte tells how many follow. -/
def sizeTag
    (value : Nat) : UInt8 :=
  if value < 0xFD then UInt8.ofNat value
  else if value ≤ 0xFFFF then 0xFD
  else if value ≤ 0xFFFFFFFF then 0xFE
  else 0xFF

/- The bytes after the tag; small values need none. -/
def sizeTail
    (value : Nat) : ByteVec :=
  if value < 0xFD then []
  else if value ≤ 0xFFFF then littleEndian 2 value
  else if value ≤ 0xFFFFFFFF then littleEndian 4 value
  else littleEndian 8 value

theorem writeCompactSize_eq
    (value : Nat) :
    writeCompactSize value =
      writeU8 (sizeTag value) ++ sizeTail value := by
  unfold writeCompactSize sizeTag sizeTail writeU8
  split_ifs <;> simp [littleEndian]

theorem readWide_canonical
    (width least : Nat) :
    Canonical (littleEndian width) (readWide width least)
      fun value =>
        value < 256 ^ width ∧
          decide (value < least) = false :=
  Canonical.guard (readLittleEndian_canonical width)

theorem sizeTag_toNat
    (value : Nat) :
    (sizeTag value).toNat =
      if value < 0xFD then value
      else if value ≤ 0xFFFF then 0xFD
      else if value ≤ 0xFFFFFFFF then 0xFE
      else 0xFF := by
  unfold sizeTag
  split_ifs with hByte
  · rw [UInt8.toNat_ofNat']
    omega
  · rfl
  · rfl
  · rfl

theorem sizeTag_eq_iff
    {value : Nat}
    {tag : UInt8} :
    sizeTag value = tag ↔
      (value < 0xFD ∧ tag.toNat = value) ∨
        (0xFD ≤ value ∧ value ≤ 0xFFFF ∧
          tag.toNat = 0xFD) ∨
        (0xFFFF < value ∧ value ≤ 0xFFFFFFFF ∧
          tag.toNat = 0xFE) ∨
        (0xFFFFFFFF < value ∧ tag.toNat = 0xFF) := by
  rw [← UInt8.toNat_inj, sizeTag_toNat]
  split_ifs <;> omega

theorem readTagged_canonical
    (tag : UInt8) :
    Canonical sizeTail (readTagged tag)
      fun value => value < 2 ^ 64 ∧ sizeTag value = tag := by
  have hTop := tag.toNat_lt
  unfold readTagged
  simp only [UInt8.lt_iff_toNat_lt, ← UInt8.toNat_inj,
    UInt8.reduceToNat]
  split_ifs with hSmall hTwo hFour
  · have hOnly :
        Canonical (fun _ => ([] : ByteVec)) (pure tag.toNat)
          fun value => value = tag.toNat :=
      Canonical.done rfl fun _ hOther => hOther
    apply Canonical.congr _ _ hOnly
    · intro value
      rw [UInt8.toNat_inj, sizeTag_eq_iff]
      omega
    · rintro value rfl
      exact if_pos hSmall
  · apply Canonical.congr _ _ (readWide_canonical 2 0xFD)
    · intro value
      rw [UInt8.toNat_inj, sizeTag_eq_iff,
        decide_eq_false_iff_not]
      omega
    · rintro value ⟨hLess, hLeast⟩
      rw [decide_eq_false_iff_not] at hLeast
      rw [sizeTail, if_neg hLeast, if_pos (by omega)]
  · apply Canonical.congr _ _ (readWide_canonical 4 0x10000)
    · intro value
      rw [UInt8.toNat_inj, sizeTag_eq_iff,
        decide_eq_false_iff_not]
      omega
    · rintro value ⟨hLess, hLeast⟩
      rw [decide_eq_false_iff_not] at hLeast
      rw [sizeTail, if_neg (by omega), if_neg (by omega),
        if_pos (by omega)]
  · apply Canonical.congr _ _
      (readWide_canonical 8 0x100000000)
    · intro value
      rw [UInt8.toNat_inj, sizeTag_eq_iff,
        decide_eq_false_iff_not]
      omega
    · rintro value ⟨hLess, hLeast⟩
      rw [decide_eq_false_iff_not] at hLeast
      rw [sizeTail, if_neg (by omega), if_neg (by omega),
        if_neg (by omega)]

theorem readMinimal_canonical :
    Canonical writeCompactSize readMinimal
      fun value => value < 2 ^ 64 := by
  apply Canonical.congr (fun _ => Iff.rfl)
    (fun value _ => writeCompactSize_eq value)
  apply Canonical.step sizeTag readU8_canonical
  · exact fun _ _ => trivial
  · exact fun tag _ => readTagged_canonical tag

theorem readCompactSize_sound
    {minElementBytes value : Nat}
    {reader after : ByteReader}
    (hOk : reader.ok = true)
    (hDone :
      readCompactSize minElementBytes reader =
        (some value, after)) :
    after.ok = true ∧
      value < 2 ^ 64 ∧
      reader.unread =
        writeCompactSize value ++ after.unread := by
  unfold readCompactSize at hDone
  split at hDone
  · cases hDone
  · rcases Decoder.bind_eq_some.mp hDone with
      ⟨found, middle, hFound, hCheck⟩
    rcases Decoder.bind_eq_some.mp hCheck with
      ⟨left, same, hLeft, hBound⟩
    cases hLeft
    split at hBound
    · cases hBound
    · rcases Decoder.pure_eq_some.mp hBound with ⟨rfl, rfl⟩
      exact readMinimal_canonical.sound _ _ _ hOk hFound

theorem readCompactSize_complete
    {minElementBytes value : Nat}
    {rest : ByteVec}
    (hPositive : 0 < minElementBytes)
    (hValue : value < 2 ^ 64)
    (hEnough : value * minElementBytes ≤ rest.length) :
    readCompactSize minElementBytes
        (.ofList (writeCompactSize value ++ rest)) =
      (some value, .ofList rest) := by
  have hPlausible :
      ¬rest.length / minElementBytes < value := by
    rw [Nat.not_lt, Nat.le_div_iff_mul_le hPositive]
    exact hEnough
  unfold readCompactSize
  rw [if_neg (by omega), Decoder.bind_of_some
    (readMinimal_canonical.complete value rest hValue)]
  change (if rest.length / minElementBytes < value
    then Decoder.fail else pure value) _ = _
  rw [if_neg hPlausible]
  rfl

------------------------------------------------------------
-- Byte Strings And Lists
------------------------------------------------------------

/-
  A count that a limit admits.  Counts are 64-bit values, so
  narrowing one to a size never fails.
-/
structure Sized
    (max count : Nat) : Prop where
  within : count ≤ max
  counted : count < 2 ^ 64

instance
    (max count : Nat) : Decidable (Sized max count) :=
  decidable_of_iff (count ≤ max ∧ count < 2 ^ 64)
    ⟨fun h => ⟨h.1, h.2⟩, fun h => ⟨h.1, h.2⟩⟩

/- A count of elements, refused above a limit. -/
def readCount
    (max minElementBytes : Nat) : Decoder UInt8 Nat := do
  let count ← readCompactSize minElementBytes
  if max < count then Decoder.fail else pure count

/- The limit is checked before any byte is taken. -/
def readByteString
    (maxLen : Nat) : Decoder UInt8 ByteVec := do
  let count ← readCount maxLen 1
  Decoder.consume count

/- The counted loop every list of the format is read by. -/
def readList
    {α : Type}
    (read : Decoder UInt8 α)
    (max minElementBytes : Nat) : Decoder UInt8 (List α) := do
  let count ← readCount max minElementBytes
  Decoder.many read count

theorem readCount_sound
    {max minElementBytes count : Nat}
    {reader after : ByteReader}
    (hOk : reader.ok = true)
    (hDone :
      readCount max minElementBytes reader =
        (some count, after)) :
    after.ok = true ∧
      Sized max count ∧
      reader.unread =
        writeCompactSize count ++ after.unread := by
  rcases Decoder.bind_eq_some.mp hDone with
    ⟨found, middle, hFound, hCheck⟩
  split at hCheck
  · cases hCheck
  · rename_i hWithin
    rcases Decoder.pure_eq_some.mp hCheck with ⟨rfl, rfl⟩
    rcases readCompactSize_sound hOk hFound with
      ⟨hAfter, hValue, hUnread⟩
    exact ⟨hAfter, ⟨Nat.not_lt.mp hWithin, hValue⟩, hUnread⟩

theorem readCount_complete
    {max minElementBytes count : Nat}
    {rest : ByteVec}
    (hPositive : 0 < minElementBytes)
    (hSized : Sized max count)
    (hEnough : count * minElementBytes ≤ rest.length) :
    readCount max minElementBytes
        (.ofList (writeCompactSize count ++ rest)) =
      (some count, .ofList rest) := by
  unfold readCount
  rw [Decoder.bind_of_some (readCompactSize_complete
    hPositive hSized.counted hEnough),
    if_neg (Nat.not_lt.mpr hSized.within)]
  rfl

theorem readByteString_canonical
    (maxLen : Nat) :
    Canonical writeByteString (readByteString maxLen)
      fun bytes => Sized maxLen bytes.length where
  sound := by
    intro reader bytes after hOk hDone
    rcases Decoder.bind_eq_some.mp hDone with
      ⟨count, middle, hCount, hBytes⟩
    rcases readCount_sound hOk hCount with
      ⟨hMiddle, hSized, hUnread⟩
    rcases (Canonical.consume count).sound _ _ _ hMiddle
      hBytes with ⟨hAfter, rfl, hLeft⟩
    refine ⟨hAfter, hSized, ?_⟩
    rw [hUnread, hLeft, writeByteString, List.append_assoc]
  complete := by
    intro bytes rest hSized
    have hEnough :
        bytes.length * 1 ≤ (bytes ++ rest).length := by
      rw [List.length_append]
      omega
    rw [writeByteString, List.append_assoc, readByteString,
      Decoder.bind_of_some
        (readCount_complete Nat.one_pos hSized hEnough)]
    exact (Canonical.consume _).complete bytes rest rfl

/- Elements of a least size fill at least that much. -/
theorem length_flatMap_ge_of_mem
    {α : Type}
    {write : α → ByteVec}
    {least : Nat}
    {items : List α}
    (hLeast : ∀ item ∈ items, least ≤ (write item).length) :
    items.length * least ≤ (items.flatMap write).length := by
  induction items with
  | nil => simp
  | cons item items ih =>
      rw [List.forall_mem_cons] at hLeast
      have hItem := hLeast.1
      have hItems := ih hLeast.2
      rw [List.flatMap_cons, List.length_append,
        List.length_cons, Nat.succ_mul]
      omega

theorem length_flatMap_ge
    {α : Type}
    {write : α → ByteVec}
    {least : Nat}
    (hLeast : ∀ item, least ≤ (write item).length)
    (items : List α) :
    items.length * least ≤ (items.flatMap write).length :=
  length_flatMap_ge_of_mem fun item _ => hLeast item

theorem length_flatMap_of_length
    {α : Type}
    {write : α → ByteVec}
    {items : List α}
    {size : Nat}
    (hSize : ∀ item ∈ items, (write item).length = size) :
    (items.flatMap write).length = size * items.length := by
  induction items with
  | nil => rfl
  | cons item items ih =>
      rw [List.forall_mem_cons] at hSize
      rw [List.flatMap_cons, List.length_append, hSize.1,
        ih hSize.2, List.length_cons, Nat.mul_succ]
      omega

/- Only what is valid has to be of the least size. -/
theorem readList_canonical_of_valid
    {α : Type}
    {write : α → ByteVec}
    {read : Decoder UInt8 α}
    {valid : α → Prop}
    {minElementBytes : Nat}
    (hRead : Canonical write read valid)
    (hPositive : 0 < minElementBytes)
    (hLeast :
      ∀ item, valid item →
        minElementBytes ≤ (write item).length)
    (max : Nat) :
    Canonical (writeList write)
      (readList read max minElementBytes)
      fun items =>
        Sized max items.length ∧
          ∀ item ∈ items, valid item where
  sound := by
    intro reader items after hOk hDone
    rcases Decoder.bind_eq_some.mp hDone with
      ⟨count, middle, hCount, hItems⟩
    rcases readCount_sound hOk hCount with
      ⟨hMiddle, hSized, hUnread⟩
    rcases hRead.many_sound hMiddle hItems with
      ⟨hAfter, rfl, hAll, hLeft⟩
    refine ⟨hAfter, ⟨hSized, hAll⟩, ?_⟩
    rw [hUnread, hLeft, writeList, List.append_assoc]
  complete := by
    rintro items rest ⟨hSized, hAll⟩
    have hEnough :
        items.length * minElementBytes ≤
          (items.flatMap write ++ rest).length := by
      have hFilled := length_flatMap_ge_of_mem
        fun item hItem => hLeast item (hAll item hItem)
      rw [List.length_append]
      omega
    rw [writeList, List.append_assoc, readList,
      Decoder.bind_of_some
        (readCount_complete hPositive hSized hEnough)]
    exact hRead.many_complete hAll rest

theorem readList_canonical
    {α : Type}
    {write : α → ByteVec}
    {read : Decoder UInt8 α}
    {valid : α → Prop}
    {minElementBytes : Nat}
    (hRead : Canonical write read valid)
    (hPositive : 0 < minElementBytes)
    (hLeast :
      ∀ item, minElementBytes ≤ (write item).length)
    (max : Nat) :
    Canonical (writeList write)
      (readList read max minElementBytes)
      fun items =>
        Sized max items.length ∧
          ∀ item ∈ items, valid item :=
  readList_canonical_of_valid hRead hPositive
    (fun item _ => hLeast item) max

------------------------------------------------------------
-- Whole Buffers
------------------------------------------------------------

/- What is read has to use up the buffer exactly. -/
def decodeWhole
    {α : Type}
    (read : Decoder UInt8 α)
    (payload : ByteVec) : Option α :=
  match read (.ofList payload) with
  | (none, _) => none
  | (some value, after) =>
      if after.ok && after.unread.isEmpty then some value
      else none

theorem decodeWhole_write
    {α : Type}
    {write : α → ByteVec}
    {read : Decoder UInt8 α}
    {valid : α → Prop}
    (hRead : Canonical write read valid)
    {value : α}
    (hValid : valid value) :
    decodeWhole read (write value) = some value := by
  have hDone := hRead.complete value [] hValid
  rw [List.append_nil] at hDone
  rw [decodeWhole, hDone]
  rfl

theorem decodeWhole_valid
    {α : Type}
    {write : α → ByteVec}
    {read : Decoder UInt8 α}
    {valid : α → Prop}
    (hRead : Canonical write read valid)
    {payload : ByteVec}
    {value : α}
    (hDone : decodeWhole read payload = some value) :
    valid value := by
  unfold decodeWhole at hDone
  split at hDone
  · cases hDone
  · rename_i found after hFound
    split at hDone
    · cases hDone
      exact (hRead.sound _ _ _ rfl hFound).2.1
    · cases hDone

end Amarian
