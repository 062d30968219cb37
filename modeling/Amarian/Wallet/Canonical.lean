import Amarian.Wallet.AddressText

/-
  Which texts name a lock.

  Every text that is read is, up to the case of the letters
  after its separator, the one that is written for the
  version and the program it names: the padding and the
  checksum leave no choice. The version is not looked at, so
  a text comes back from its lock exactly if it carries
  version 1 and no capital letter.

  Key definitions include:
    * `lowerCase`
    * `lowered`
    * `PlainVersionOne`

  Key theorems include:
    * `charOf_charToValue`
    * `decodeData_values`
    * `decodeAddress_split`
    * `decodeAddress_lowered`
    * `addressToLock_comesBack_iff`
-/

------------------------------------------------------------
-- Letters
------------------------------------------------------------

namespace Amarian

namespace Wallet

/- A letter without its capital. -/
def lowerCase
    (char : UInt8) : UInt8 :=
  if 0x41 ≤ char ∧ char ≤ 0x5A then char + 0x20 else char

/- The text with no capital letter after the separator. -/
def lowered
    (hrp address : ByteVec) : ByteVec :=
  address.take (hrp.length + 1) ++
    (address.drop (hrp.length + 1)).map lowerCase

/- The version digit is that of version 1, and there is no
   capital letter after the separator. -/
def PlainVersionOne
    (hrp address : ByteVec) : Prop :=
  (address.drop (hrp.length + 1)).head? = some 0x70 ∧
    ∀ char ∈ address.drop (hrp.length + 1),
      ¬ (0x41 ≤ char ∧ char ≤ 0x5A)

instance
    (hrp address : ByteVec) :
    Decidable (PlainVersionOne hrp address) :=
  inferInstanceAs (Decidable (_ ∧ _))

/- A character that has a value is the digit of the value. -/
theorem charOf_charToValue
    {char : UInt8}
    (hValue : charToValue char ≤ 31) :
    charOf (charToValue char) = lowerCase char := by
  have hFold :
      charToValue char =
        (charset.findIdx? (· == lowerCase char)).elim 0xFF
          UInt8.ofNat := by
    unfold charToValue lowerCase
    dsimp only
    cases charset.findIdx? _ <;> rfl
  rw [hFold] at hValue ⊢
  cases hFound : charset.findIdx? (· == lowerCase char) with
  | none =>
      rw [hFound] at hValue
      exact absurd hValue (by decide)
  | some found =>
      rcases List.findIdx?_eq_some_iff_getElem.mp hFound with
        ⟨hIn, hSame, -⟩
      have hSize : found < 32 := hIn
      have hNat : (UInt8.ofNat found).toNat = found := by
        rw [UInt8.toNat_ofNat']
        omega
      rw [charOf, Option.elim_some, hNat,
        List.getD_eq_getElem _ _ hIn]
      exact eq_of_beq hSame

/- The digits are no capitals. -/
theorem charOf_plain :
    ∀ number < 32,
      ¬ (0x41 ≤ charOf (UInt8.ofNat number) ∧
        charOf (UInt8.ofNat number) ≤ 0x5A) := by
  decide

theorem charToValue_lt
    {char : UInt8}
    (hValue : charToValue char ≤ 31) :
    (charToValue char).toNat < 2 ^ 5 := by
  have hNat := UInt8.le_iff_toNat_le.mp hValue
  have hNumber : UInt8.toNat 31 = 31 := rfl
  omega

------------------------------------------------------------
-- What Is Read
------------------------------------------------------------

/-
  The values of a data part that is read are the ones that
  are written for what it names.
-/
theorem decodeData_values
    {hrp data : ByteVec}
    {decoded : DecodedAddress}
    (hDecoded : decodeData hrp data = some decoded) :
    decoded.version ≤ 16 ∧
      (∀ char ∈ data, charToValue char ≤ 31) ∧
      data.map charToValue =
        dataValues hrp decoded.version decoded.program := by
  unfold decodeData at hDecoded
  dsimp only at hDecoded
  split at hDecoded
  · cases hDecoded
  rename_i hSmall
  split at hDecoded
  · cases hDecoded
  rename_i hLong
  split at hDecoded
  · cases hDecoded
  rename_i hChecked
  split at hDecoded
  · cases hDecoded
  rename_i version groups hPayload
  split at hDecoded
  · cases hDecoded
  rename_i hVersion
  rcases Option.map_eq_some_iff.mp hDecoded with
    ⟨program, hProgram, rfl⟩
  have hValues :
      ∀ char ∈ data, charToValue char ≤ 31 := by
    intro char hChar
    apply UInt8.not_lt.mp
    intro hLarge
    apply hSmall
    exact List.any_eq_true.mpr
      ⟨_, List.mem_map_of_mem hChar, decide_eq_true hLarge⟩
  have hBelow :
      ∀ value ∈ data.map charToValue,
        value.toNat < 2 ^ 5 := by
    intro value hValue
    rcases List.mem_map.mp hValue with ⟨char, hChar, rfl⟩
    exact charToValue_lt (hValues char hChar)
  refine ⟨UInt8.not_lt.mp hVersion, hValues, ?_⟩
  generalize data.map charToValue = values
    at hLong hChecked hPayload hBelow ⊢
  have hSplit :
      values = version :: groups ++
        values.drop (values.length - 6) := by
    rw [← hPayload, List.take_append_drop]
  have hCheck : (values.drop (values.length - 6)).length = 6 := by
    rw [List.length_drop]
    omega
  have hGroups : ∀ group ∈ groups, group.toNat < 2 ^ 5 := by
    intro group hGroup
    apply hBelow
    rw [hSplit]
    exact List.mem_append_left _
      (List.mem_cons_of_mem _ hGroup)
  have hWritten :=
    convert8To5_convert5To8 hGroups hProgram
  have hSum :
      polyMod (hrpExpand hrp ++ version :: groups ++
          values.drop (values.length - 6)) =
        bech32mConst := by
    rw [List.append_assoc, ← hSplit]
    exact of_not_not hChecked
  have hUnique := checksum_unique hSum hCheck
    fun value hValue =>
      hBelow value (List.mem_of_mem_drop hValue)
  rw [dataValues, hWritten, ← hUnique]
  exact hSplit

/- Where the separator is, and none after it. -/
theorem separatorOf_split
    {address : ByteVec}
    {sep : Nat}
    (hSep : separatorOf address = some sep) :
    address = address.take sep ++
      0x31 :: address.drop (sep + 1) := by
  unfold separatorOf at hSep
  rcases Option.map_eq_some_iff.mp hSep with
    ⟨behind, hBehind, rfl⟩
  rcases List.findIdx?_eq_some_iff_getElem.mp hBehind with
    ⟨hIn, hHere, -⟩
  rw [List.length_reverse] at hIn
  rw [List.getElem_reverse, beq_iff_eq] at hHere
  have hDrop := List.drop_eq_getElem_cons
    (show address.length - 1 - behind < address.length by omega)
  rw [hHere] at hDrop
  rw [← hDrop, List.take_append_drop]

/- An address that is read is a prefix, a separator and a
   data part that is read. -/
theorem decodeAddress_split
    {hrp address : ByteVec}
    {decoded : DecodedAddress}
    (hDecoded : decodeAddress hrp address = some decoded) :
    ∃ data,
      address = hrp ++ 0x31 :: data ∧
        decodeData hrp data = some decoded := by
  unfold decodeAddress at hDecoded
  split at hDecoded
  · cases hDecoded
  split at hDecoded
  · cases hDecoded
  rename_i sep hSep
  split at hDecoded
  · cases hDecoded
  split at hDecoded
  · cases hDecoded
  rename_i hHrp
  split at hDecoded
  · cases hDecoded
  refine ⟨_, ?_, hDecoded⟩
  have hSplit := separatorOf_split hSep
  rw [of_not_not hHrp] at hSplit
  exact hSplit

------------------------------------------------------------
-- One Text For Each Lock
------------------------------------------------------------

theorem lowered_join
    (hrp data : ByteVec) :
    lowered hrp (hrp ++ 0x31 :: data) =
      hrp ++ 0x31 :: data.map lowerCase := by
  have hText :
      hrp ++ 0x31 :: data = (hrp ++ [0x31]) ++ data := by
    simp
  have hLength :
      hrp.length + 1 = (hrp ++ [(0x31 : UInt8)]).length := by
    simp
  rw [lowered, hText, hLength, List.take_left,
    List.drop_left, List.append_assoc, List.singleton_append]

/- Nothing is lowered where there is no capital. -/
theorem lowered_plain
    {hrp address : ByteVec}
    (hPlain :
      ∀ char ∈ address.drop (hrp.length + 1),
        ¬ (0x41 ≤ char ∧ char ≤ 0x5A)) :
    lowered hrp address = address := by
  have hSame :
      (address.drop (hrp.length + 1)).map lowerCase =
        address.drop (hrp.length + 1) := by
    calc
      _ = (address.drop (hrp.length + 1)).map id :=
        List.map_congr_left fun char hChar =>
          if_neg (hPlain char hChar)
      _ = _ := List.map_id _
  rw [lowered, hSame, List.take_append_drop]

theorem drop_encodeAddress
    (hrp program : ByteVec)
    {version : UInt8}
    (hVersion : version ≤ 16) :
    (encodeAddress hrp version program).drop
        (hrp.length + 1) =
      dataPart hrp version program := by
  rw [encodeAddress_eq _ _ hVersion, List.drop_append,
    List.drop_eq_nil_of_le (Nat.le_succ hrp.length)]
  simp

/- A written data part begins with the digit of its version. -/
theorem head_dataPart
    (hrp program : ByteVec)
    (version : UInt8) :
    (dataPart hrp version program).head? =
      some (charOf version) := by
  simp [dataPart]

/- No capital is ever written. -/
theorem dataPart_plain
    (hrp program : ByteVec)
    {version : UInt8}
    (hVersion : version ≤ 16) :
    ∀ char ∈ dataPart hrp version program,
      ¬ (0x41 ≤ char ∧ char ≤ 0x5A) := by
  intro char hChar
  rw [dataPart_eq] at hChar
  rcases List.mem_map.mp hChar with ⟨value, hValue, rfl⟩
  have hPlain := charOf_plain value.toNat
    (dataValues_lt hrp program hVersion value hValue)
  rwa [UInt8.ofNat_toNat] at hPlain

/- The data part is the one written, up to its case. -/
theorem decodeAddress_lowered
    {hrp address : ByteVec}
    {decoded : DecodedAddress}
    (hDecoded : decodeAddress hrp address = some decoded) :
    lowered hrp address =
      encodeAddress hrp decoded.version decoded.program := by
  rcases decodeAddress_split hDecoded with
    ⟨data, rfl, hData⟩
  rcases decodeData_values hData with
    ⟨hVersion, hValues, hWritten⟩
  rw [lowered_join, encodeAddress_eq _ _ hVersion, dataPart_eq,
    ← hWritten, List.map_map]
  congr 2
  apply List.map_congr_left
  intro char hChar
  exact (charOf_charToValue (hValues char hChar)).symm

/- What a lock that was read is written as. -/
theorem lockToAddress_read
    {address hrp : ByteVec}
    {lock : Lock}
    (hLock : addressToLock address hrp = some lock) :
    lockToAddress lock hrp =
      some (encodeAddress hrp addressVersionCondition
        lock.program) := by
  rcases addressToLock_form hLock with ⟨hVersion, hProgram⟩
  unfold lockToAddress
  rw [if_neg (not_not_intro hVersion),
    if_neg (not_not_intro hProgram)]

/- A plain text of version 1 that names a lock is the one
   written for it. -/
theorem plain_written
    {address hrp : ByteVec}
    {lock : Lock}
    (hLock : addressToLock address hrp = some lock)
    (hPlain : PlainVersionOne hrp address) :
    decodeAddress hrp address =
        some {
          version := addressVersionCondition
          program := lock.program } ∧
      address = encodeAddress hrp addressVersionCondition
        lock.program := by
  rcases Option.map_eq_some_iff.mp hLock with
    ⟨⟨version, program⟩, hDecoded, rfl⟩
  have hLow : version ≤ 16 := by
    rcases decodeAddress_split hDecoded with
      ⟨data, -, hData⟩
    exact (decodeData_values hData).1
  have hText := decodeAddress_lowered hDecoded
  rw [lowered_plain hPlain.2] at hText
  -- the first character tells the version
  have hDigit : charOf version = 0x70 := by
    have hHead := hPlain.1
    rw [hText, drop_encodeAddress _ _ hLow, head_dataPart]
      at hHead
    exact Option.some.inj hHead
  have hVersion : version = addressVersionCondition := by
    have hBound : version.toNat < 2 ^ 5 := by
      have hNat := UInt8.le_iff_toNat_le.mp hLow
      have hNumber : UInt8.toNat 16 = 16 := rfl
      omega
    rw [← charToValue_charOf hBound, hDigit]
    decide
  subst hVersion
  exact ⟨hDecoded, hText⟩

/-
  A text that is read as a lock comes back from the lock
  exactly if it carries version 1 and no capital. Of such
  texts each lock has one, and it is read as version 1.
-/
theorem addressToLock_comesBack_iff
    {address hrp : ByteVec}
    {lock : Lock}
    (hLock : addressToLock address hrp = some lock) :
    (lockToAddress lock hrp = some address ↔
        PlainVersionOne hrp address) ∧
      (PlainVersionOne hrp address →
        decodeAddress hrp address =
            some {
              version := addressVersionCondition
              program := lock.program } ∧
          ∀ other,
            addressToLock other hrp = some lock →
              PlainVersionOne hrp other →
                other = address) := by
  refine ⟨⟨?_, ?_⟩, ?_⟩
  · intro hBack
    rw [lockToAddress_read hLock] at hBack
    have hVersion : addressVersionCondition ≤ 16 := by decide
    rw [← Option.some.inj hBack]
    unfold PlainVersionOne
    rw [drop_encodeAddress _ _ hVersion, head_dataPart]
    exact ⟨by decide, dataPart_plain _ _ hVersion⟩
  · intro hPlain
    rw [lockToAddress_read hLock,
      ← (plain_written hLock hPlain).2]
  · intro hPlain
    rcases plain_written hLock hPlain with
      ⟨hDecoded, hText⟩
    refine ⟨hDecoded, fun other hOther hOtherPlain => ?_⟩
    rw [hText]
    exact (plain_written hOther hOtherPlain).2

namespace Sample

def zeroLock : Lock :=
  { version := lockVersionConditionCommitment
    program := zeroProgram }

/- The address of that lock. -/
def zeroAddress : ByteVec :=
  encodeAddress (asciiBytes "amr") 1 zeroProgram

/- The same program under version 2. -/
def versionTwoAddress : ByteVec :=
  encodeAddress (asciiBytes "amr") 2 zeroProgram

/- The address of the lock, with its version as a capital. -/
def capitalAddress : ByteVec :=
  zeroAddress.set 4 0x50

theorem zeroAddress_comesBack :
    lockToAddress zeroLock (asciiBytes "amr") =
        some zeroAddress ∧
      decodeAddress (asciiBytes "amr") zeroAddress =
        some { version := 1, program := zeroProgram } := by
  have hLock :
      addressToLock zeroAddress (asciiBytes "amr") =
        some zeroLock := by
    decide +kernel
  have hPlain :
      PlainVersionOne (asciiBytes "amr") zeroAddress := by
    decide +kernel
  rcases addressToLock_comesBack_iff hLock with
    ⟨hBack, hRead⟩
  exact ⟨hBack.mpr hPlain, (hRead hPlain).1⟩

/- Three texts of one lock, one of them of another version;
   the lock gives one of them back. -/
theorem versionTwo_paid :
    decodeAddress (asciiBytes "amr") versionTwoAddress =
        some { version := 2, program := zeroProgram } ∧
      addressToLock versionTwoAddress (asciiBytes "amr") =
        some zeroLock ∧
      addressToLock capitalAddress (asciiBytes "amr") =
        some zeroLock ∧
      addressToLock zeroAddress (asciiBytes "amr") =
        some zeroLock ∧
      lockToAddress zeroLock (asciiBytes "amr") =
        some zeroAddress ∧
      versionTwoAddress ≠ zeroAddress ∧
      capitalAddress ≠ zeroAddress := by
  decide +kernel

end Sample

end Wallet

end Amarian
