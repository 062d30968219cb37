import Amarian.Util.Bytes

/-
  Hexadecimal text, in which byte strings travel in their
  own order and 32-byte values, for display, in the reverse
  one.

  Key definitions include:
    * `toHex`
    * `fromHex`
    * `Bytes32.toHex`
    * `hash256FromHex`

  Key theorems include:
    * `fromHex_toHex`
    * `hash256FromHex_toHex`
-/

------------------------------------------------------------
-- Digits
------------------------------------------------------------

namespace Amarian

/- Lower case, which is what is printed. -/
def hexDigits : List Char :=
  "0123456789abcdef".toList

/- The digit of a value below sixteen. -/
def hexDigit
    (value : Nat) : Char :=
  hexDigits.getD value '0'

/- The value of a digit in either case. -/
def hexVal
    (char : Char) : Option Nat :=
  if '0' ≤ char ∧ char ≤ '9' then
    some (char.toNat - '0'.toNat)
  else if 'a' ≤ char ∧ char ≤ 'f' then
    some (char.toNat - 'a'.toNat + 10)
  else if 'A' ≤ char ∧ char ≤ 'F' then
    some (char.toNat - 'A'.toNat + 10)
  else
    none

theorem hexVal_hexDigit
    {value : Nat}
    (hValue : value < 16) :
    hexVal (hexDigit value) = some value := by
  have hAll : ∀ digit : Fin 16,
      hexVal (hexDigit digit.val) = some digit.val := by
    decide
  exact hAll ⟨value, hValue⟩

------------------------------------------------------------
-- Byte Strings
------------------------------------------------------------

/- The high half of a byte comes first. -/
def hexPair
    (byte : UInt8) : List Char :=
  [hexDigit (byte.toNat / 16), hexDigit (byte.toNat % 16)]

/- Lower case, without a prefix or separators. -/
def toHex
    (bytes : ByteVec) : String :=
  String.ofList (bytes.flatMap hexPair)

/- A text of odd length ends with a digit on its own. -/
def bytesOfHex : List Char → Option ByteVec
  | [] => some []
  | [_] => none
  | high :: low :: rest =>
      match hexVal high, hexVal low with
      | some hi, some lo =>
          (bytesOfHex rest).map
            (UInt8.ofNat (16 * hi + lo) :: ·)
      | _, _ => none

/- Refuses odd lengths and anything that is no digit. -/
def fromHex
    (hex : String) : Option ByteVec :=
  bytesOfHex hex.toList

/- Only texts of exactly that many bytes. -/
def fromHexExact
    (hex : String)
    (expectedLen : Nat) : Option ByteVec :=
  if hex.length = expectedLen * 2 then
    fromHex hex
  else
    none

theorem bytesOfHex_hexPair
    (bytes : ByteVec) :
    bytesOfHex (bytes.flatMap hexPair) = some bytes := by
  induction bytes with
  | nil => rfl
  | cons byte bytes ih =>
      have hByte := byte.toNat_lt
      have hHigh : byte.toNat / 16 < 16 := by omega
      have hLow : byte.toNat % 16 < 16 := by omega
      have hJoined :
          16 * (byte.toNat / 16) + byte.toNat % 16 =
            byte.toNat := by
        omega
      rw [List.flatMap_cons, hexPair, List.cons_append,
        List.cons_append, List.nil_append, bytesOfHex,
        hexVal_hexDigit hHigh, hexVal_hexDigit hLow]
      simp only [ih, hJoined, Option.map_some,
        UInt8.ofNat_toNat]

theorem fromHex_toHex
    (bytes : ByteVec) :
    fromHex (toHex bytes) = some bytes := by
  rw [fromHex, toHex, String.toList_ofList]
  exact bytesOfHex_hexPair bytes

theorem length_toHex
    (bytes : ByteVec) :
    (toHex bytes).length = 2 * bytes.length := by
  rw [toHex, String.length_ofList]
  induction bytes with
  | nil => rfl
  | cons byte bytes ih =>
      rw [List.flatMap_cons, List.length_append, ih]
      simp only [hexPair, List.length_cons, List.length_nil]
      omega

theorem toHex_injective
    {left right : ByteVec}
    (hHex : toHex left = toHex right) :
    left = right := by
  have hLeft := fromHex_toHex left
  rw [hHex, fromHex_toHex] at hLeft
  exact (Option.some_inj.mp hLeft).symm

------------------------------------------------------------
-- Values Of Thirty-Two Bytes
------------------------------------------------------------

/- `FromBytes`, for the one length it takes. -/
def hash256FromBytes
    (bytes : ByteVec) : Option Hash256 :=
  if hSize : bytes.length = 32 then
    some ⟨bytes, hSize⟩
  else
    none

namespace Bytes32

/- The bytes of a value from last to first. -/
def reversed
    (value : Bytes32) : Bytes32 :=
  ⟨value.bytes.reverse, by
    rw [List.length_reverse, value.size_eq]⟩

/- The form explorers and the RPC interface print. -/
def toHex
    (value : Bytes32) : String :=
  Amarian.toHex value.reversed.bytes

@[simp] theorem reversed_reversed
    (value : Bytes32) :
    value.reversed.reversed = value :=
  Bytes32.ext (List.reverse_reverse value.bytes)

theorem toHex_injective
    {left right : Bytes32}
    (hHex : left.toHex = right.toHex) :
    left = right := by
  rw [← reversed_reversed left, ← reversed_reversed right]
  exact congrArg reversed
    (Bytes32.ext (Amarian.toHex_injective hHex))

end Bytes32

/- Parses a value written in the order for display. -/
def hash256FromHex
    (hex : String) : Option Hash256 :=
  (fromHexExact hex 32).bind
    fun bytes => hash256FromBytes bytes.reverse

theorem hash256FromBytes_bytes
    (value : Hash256) :
    hash256FromBytes value.bytes = some value := by
  rw [hash256FromBytes, dif_pos value.size_eq]

theorem fromHexExact_toHex
    (value : Hash256) :
    fromHexExact (toHex value.bytes) 32 =
      some value.bytes := by
  have hLength : (toHex value.bytes).length = 32 * 2 := by
    rw [length_toHex, value.size_eq]
  rw [fromHexExact, if_pos hLength, fromHex_toHex]

theorem hash256FromHex_toHex
    (value : Hash256) :
    hash256FromHex value.toHex = some value := by
  have hBytes :
      value.reversed.bytes.reverse = value.bytes :=
    List.reverse_reverse value.bytes
  rw [hash256FromHex, Bytes32.toHex, fromHexExact_toHex,
    Option.bind_some, hBytes, hash256FromBytes_bytes]

/- The text of a value is that of its bytes reversed. -/
theorem fromHex_of_hash256FromHex
    {hex : String}
    {value : Hash256}
    (hValue : hash256FromHex hex = some value) :
    fromHex hex = some value.reversed.bytes := by
  unfold hash256FromHex fromHexExact at hValue
  split at hValue
  · rcases Option.bind_eq_some_iff.mp hValue with
      ⟨bytes, hBytes, hRead⟩
    unfold hash256FromBytes at hRead
    split at hRead
    · cases hRead
      rw [hBytes]
      exact congrArg some (List.reverse_reverse bytes).symm
    · cases hRead
  · cases hValue

end Amarian
