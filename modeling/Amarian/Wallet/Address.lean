import Amarian.Consensus.Params

/-
  Reading an address.

  Text is a string of bytes, as in the source.

  Key definitions include:
    * `polyMod`
    * `convert5To8`
    * `decodeAddress`
    * `addressToLock`

  Key theorems include:
    * `addressToLock_form`
-/

------------------------------------------------------------
-- The Checksum
------------------------------------------------------------

namespace Amarian

namespace Wallet

def charset : ByteVec :=
  asciiBytes "qpzry9x8gf2tvdw0s3jn54khce6mua7l"

def checksumGenerators : List UInt32 :=
  [0x3B6A57B2, 0x26508E6D, 0x1EA119FA, 0x3D4233DD,
    0x2A1462B3]

def bech32mConst : UInt32 := 0x2BC830A3

/- Either case of a letter; 255 is no digit at all. -/
def charToValue
    (char : UInt8) : UInt8 :=
  let lower :=
    if 0x41 ≤ char ∧ char ≤ 0x5A then char + 0x20 else char
  match charset.findIdx? (· == lower) with
  | some found => UInt8.ofNat found
  | none => 0xFF

/- One step of the checksum's shift register. -/
def polyModStep
    (chk value : UInt32) : UInt32 :=
  let top := chk >>> 25
  let next := ((chk &&& 0x1FFFFFF) <<< 5) ^^^ value
  (checksumGenerators.zipIdx).foldl
    (fun next (generator, place) =>
      if (top >>> UInt32.ofNat place) &&& 1 = 1 then
        next ^^^ generator
      else
        next)
    next

def polyMod
    (values : ByteVec) : UInt32 :=
  values.foldl
    (fun chk value => polyModStep chk value.toUInt32) 1

/- Two values for each character, and a zero at the end. -/
def hrpExpand
    (hrp : ByteVec) : ByteVec :=
  hrp.flatMap
      (fun char : UInt8 =>
        [(char >>> 5) &&& 0x1F, char &&& 0x1F]) ++
    [0]

------------------------------------------------------------
-- Groups Of Five Bits
------------------------------------------------------------

/- The bytes that are complete, and the bits left over. -/
def regroup5To8 :
    ByteVec → UInt32 → Nat →
      Option (ByteVec × UInt32 × Nat)
  | [], buffer, bits => some ([], buffer, bits)
  | value :: rest, buffer, bits =>
      if value > 31 then
        none
      else
        let buffer := (buffer <<< 5) ||| value.toUInt32
        if bits + 5 ≥ 8 then do
          let left := bits + 5 - 8
          let (bytes, last) ← regroup5To8 rest buffer left
          some ((buffer >>> UInt32.ofNat left).toUInt8 ::
            bytes, last)
        else
          regroup5To8 rest buffer (bits + 5)

def convert5To8
    (data : ByteVec)
    (expectedBytes : Nat) : Option ByteVec :=
  match regroup5To8 data 0 0 with
  | none => none
  | some (bytes, buffer, bits) =>
      if bits ≥ 5 ∨
          (bits > 0 ∧
            (buffer <<< UInt32.ofNat (8 - bits)) &&& 0xFF ≠
              0) then
        none
      else if bytes.length ≠ expectedBytes then
        none
      else
        some bytes

------------------------------------------------------------
-- Addresses
------------------------------------------------------------

def addressProgramBytes : Nat := 32

structure DecodedAddress where
  version : UInt8
  program : ByteVec
deriving DecidableEq

/- Where the last `1` of the text is. -/
def separatorOf
    (address : ByteVec) : Option Nat :=
  (address.reverse.findIdx? (· == 0x31)).map
    fun behind => address.length - 1 - behind

/- The part after the separator, checksum included. -/
def decodeData
    (hrp data : ByteVec) : Option DecodedAddress :=
  let values := data.map charToValue
  if values.any (· > 31) then
    none
  else if values.length < 6 then
    none
  else if polyMod (hrpExpand hrp ++ values) ≠
      bech32mConst then
    none
  else
    match values.take (values.length - 6) with
    | [] => none
    | version :: program5bit =>
        if version > 16 then
          none
        else
          (convert5To8 program5bit addressProgramBytes).map
            fun program => { version, program }

/- The prefix is checked first, then the data part. -/
def decodeAddress
    (hrp address : ByteVec) : Option DecodedAddress :=
  if address.length < 8 ∨ address.length > 90 then
    none
  else
    match separatorOf address with
    | none => none
    | some sep =>
        if sep = 0 ∨ sep + 7 > address.length then
          none
        else if address.take sep ≠ hrp then
          none
        else if hrp.any fun char =>
            char < 33 || char > 126 then
          none
        else
          decodeData hrp (address.drop (sep + 1))

/- The version that was read is not looked at. -/
def addressToLock
    (address hrp : ByteVec) : Option Lock :=
  (decodeAddress hrp address).map fun decoded =>
    { version := lockVersionConditionCommitment
      program := decoded.program }

/- The test networks share one prefix. -/
def hrpFor
    (params : ChainParams) : ByteVec :=
  if params.network = .regtest ∨
      params.network = .testnet then
    asciiBytes "tamr"
  else
    asciiBytes "amr"

theorem length_convert5To8
    {data bytes : ByteVec}
    {expectedBytes : Nat}
    (hBytes :
      convert5To8 data expectedBytes = some bytes) :
    bytes.length = expectedBytes := by
  unfold convert5To8 at hBytes
  split at hBytes
  · cases hBytes
  split at hBytes
  · cases hBytes
  split at hBytes
  · cases hBytes
  rename_i hLength
  cases hBytes
  exact of_not_not hLength

theorem length_decodeData
    {hrp data : ByteVec}
    {decoded : DecodedAddress}
    (hDecoded : decodeData hrp data = some decoded) :
    decoded.program.length = addressProgramBytes := by
  unfold decodeData at hDecoded
  dsimp only at hDecoded
  split at hDecoded
  · cases hDecoded
  split at hDecoded
  · cases hDecoded
  split at hDecoded
  · cases hDecoded
  split at hDecoded
  · cases hDecoded
  split at hDecoded
  · cases hDecoded
  rcases Option.map_eq_some_iff.mp hDecoded with
    ⟨program, hProgram, rfl⟩
  exact length_convert5To8 hProgram

/- Every lock that an address names has the one form. -/
theorem addressToLock_form
    {address hrp : ByteVec}
    {lock : Lock}
    (hLock : addressToLock address hrp = some lock) :
    lock.version = lockVersionConditionCommitment ∧
      lock.program.length = addressProgramBytes := by
  rcases Option.map_eq_some_iff.mp hLock with
    ⟨decoded, hDecoded, rfl⟩
  refine ⟨rfl, ?_⟩
  unfold decodeAddress at hDecoded
  split at hDecoded
  · cases hDecoded
  split at hDecoded
  · cases hDecoded
  split at hDecoded
  · cases hDecoded
  split at hDecoded
  · cases hDecoded
  split at hDecoded
  · cases hDecoded
  exact length_decodeData hDecoded

end Wallet

end Amarian
