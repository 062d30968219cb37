import Mathlib.Algebra.Ring.Int.Defs
import Mathlib.Algebra.Ring.Nat
import Mathlib.Data.List.Basic
import Mathlib.Tactic.Common

/-
  Byte strings and the 32-byte blob every Amarian layer
  shares, with the writing half of the canonical encoding.

  A `Writer` of the source only ever appends, so each
  `Write*` method is modelled by the bytes it appends.

  Key definitions include:
    * `Bytes32`
    * `Hash256`
    * `littleEndian`
    * `writeCompactSize`
    * `writeByteString`
-/

------------------------------------------------------------
-- Blobs Of Thirty-Two Bytes
------------------------------------------------------------

namespace Amarian

/- Bytes as they are stored and sent. -/
abbrev ByteVec := List UInt8

/-
  An array of exactly thirty-two bytes.  Hashes, targets and
  amounts of work are all stored this way.
-/
structure Bytes32 where
  bytes : ByteVec
  size_eq : bytes.length = 32
deriving DecidableEq

namespace Bytes32

/- Copy the first thirty-two bytes, reading zero past the end. -/
def ofList
    (bytes : ByteVec) : Bytes32 :=
  ⟨(bytes ++ List.replicate 32 0).take 32, by simp⟩

/- The value-initialised array. -/
def zero : Bytes32 :=
  ⟨List.replicate 32 0, by simp⟩

/- The null value, which names no transaction or block. -/
def isZero
    (value : Bytes32) : Bool :=
  value.bytes.all (· == 0)

@[ext] theorem ext
    {left right : Bytes32}
    (hBytes : left.bytes = right.bytes) :
    left = right := by
  cases left
  cases right
  cases hBytes
  rfl

end Bytes32

/-
  A 256-bit opaque value in hash-output order: block hashes,
  transaction ids, Merkle nodes and commitments.
-/
abbrev Hash256 := Bytes32

/-
  Lexicographic order on byte arrays, which is the order
  `std::array` comparison uses.
-/
def bytesLess : ByteVec → ByteVec → Bool
  | _, [] => false
  | [], _ :: _ => true
  | x :: xs, y :: ys =>
      if x = y then bytesLess xs ys else decide (x < y)

------------------------------------------------------------
-- Writing
------------------------------------------------------------

/- The `width` low bytes of a value, least significant first. -/
def littleEndian : Nat → Nat → ByteVec
  | 0, _ => []
  | width + 1, value =>
      UInt8.ofNat value ::
        littleEndian width (value / 256)

/- A single byte. -/
def writeU8
    (value : UInt8) : ByteVec :=
  [value]

/- Integers go out with their low byte first. -/
def writeU16
    (value : UInt16) : ByteVec :=
  littleEndian 2 value.toNat

def writeU32
    (value : UInt32) : ByteVec :=
  littleEndian 4 value.toNat

/- The widest integer that is written. -/
def writeU64
    (value : UInt64) : ByteVec :=
  littleEndian 8 value.toNat

/- A signed value is written as its two's complement. -/
def writeI64
    (value : Int64) : ByteVec :=
  writeU64 value.toUInt64

/- The bytes of a value in their own order, with no length. -/
def writeHash256
    (hash : Hash256) : ByteVec :=
  hash.bytes

/- The canonical variable-length encoding of a count. -/
def writeCompactSize
    (value : Nat) : ByteVec :=
  if value < 0xFD then
    littleEndian 1 value
  else if value ≤ 0xFFFF then
    0xFD :: littleEndian 2 value
  else if value ≤ 0xFFFFFFFF then
    0xFE :: littleEndian 4 value
  else
    0xFF :: littleEndian 8 value

/- How many bytes `writeCompactSize` writes. -/
def compactSizeLen
    (value : Nat) : Nat :=
  if value < 0xFD then 1
  else if value ≤ 0xFFFF then 3
  else if value ≤ 0xFFFFFFFF then 5
  else 9

theorem compactSizeLen_le
    (count : Nat) :
    compactSizeLen count ≤ 9 := by
  unfold compactSizeLen
  split
  · decide
  split
  · decide
  split
  · decide
  · decide

/- The length in its shortest form, then the bytes. -/
def writeByteString
    (bytes : ByteVec) : ByteVec :=
  writeCompactSize bytes.length ++ bytes

/- A count followed by each element's own encoding. -/
def writeList
    {α : Type}
    (write : α → ByteVec)
    (items : List α) : ByteVec :=
  writeCompactSize items.length ++ items.flatMap write

/- The bytes of an ASCII tag or message. -/
def asciiBytes
    (text : String) : ByteVec :=
  text.toList.map fun char => UInt8.ofNat char.toNat

end Amarian
