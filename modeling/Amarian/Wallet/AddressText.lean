import Amarian.Wallet.Checksum
import Amarian.Wallet.Regrouping

/-
  Writing an address, and reading it back.

  Key definitions include:
    * `encodeAddress`
    * `lockToAddress`
    * `dataPart`

  Key theorems include:
    * `decodeData_dataPart`
    * `decodeData_replaced`
    * `address_detects`
-/

------------------------------------------------------------
-- Writing Addresses
------------------------------------------------------------

namespace Amarian

namespace Wallet

def addressVersionCondition : UInt8 := 1

/- What is written is at most 31, so that there is a
   character. -/
def charOf
    (value : UInt8) : UInt8 :=
  charset.getD value.toNat 0

/- The characters after the separator. -/
def dataPart
    (hrp : ByteVec)
    (version : UInt8)
    (program : ByteVec) : ByteVec :=
  let fiveBit := version :: convert8To5 program
  fiveBit.map charOf ++
    (computeChecksum5 (hrpExpand hrp) fiveBit).map charOf

/- An empty text where the version has no character. -/
def encodeAddress
    (hrp : ByteVec)
    (version : UInt8)
    (program : ByteVec) : ByteVec :=
  if version > 31 then
    []
  else
    hrp ++ 0x31 :: dataPart hrp version program

/- Only a condition commitment has an address. -/
def lockToAddress
    (lock : Lock)
    (hrp : ByteVec) : Option ByteVec :=
  if lock.version ≠ lockVersionConditionCommitment then
    none
  else if lock.program.length ≠ addressProgramBytes then
    none
  else
    some (encodeAddress hrp addressVersionCondition
      lock.program)

------------------------------------------------------------
-- Characters
------------------------------------------------------------

/- The digits are told apart, and the separator is none. -/
theorem charOf_spec :
    ∀ number < 32,
      charToValue (charOf (UInt8.ofNat number)) =
          UInt8.ofNat number ∧
        charOf (UInt8.ofNat number) ≠ 0x31 := by
  decide

theorem charToValue_charOf
    {value : UInt8}
    (hValue : value.toNat < 2 ^ 5) :
    charToValue (charOf value) = value := by
  have hSpec := (charOf_spec value.toNat hValue).1
  rwa [UInt8.ofNat_toNat] at hSpec

theorem charOf_ne_separator
    {value : UInt8}
    (hValue : value.toNat < 2 ^ 5) :
    charOf value ≠ 0x31 := by
  have hSpec := (charOf_spec value.toNat hValue).2
  rwa [UInt8.ofNat_toNat] at hSpec

theorem map_charToValue
    {values : ByteVec}
    (hValues : ∀ value ∈ values, value.toNat < 2 ^ 5) :
    (values.map charOf).map charToValue = values := by
  rw [List.map_map]
  calc
    values.map (charToValue ∘ charOf) = values.map id :=
      List.map_congr_left fun value hValue =>
        charToValue_charOf (hValues value hValue)
    _ = values := List.map_id values

------------------------------------------------------------
-- The Separator
------------------------------------------------------------

theorem separatorOf_join
    (front back : ByteVec)
    (hBack : ∀ char ∈ back, char ≠ 0x31) :
    separatorOf (front ++ 0x31 :: back) =
      some front.length := by
  have hNone :
      back.reverse.findIdx? (· == 0x31) = none := by
    rw [List.findIdx?_eq_none_iff]
    intro char hChar
    exact beq_false_of_ne (hBack char (List.mem_reverse.mp hChar))
  unfold separatorOf
  rw [List.reverse_append, List.reverse_cons,
    List.append_assoc, List.findIdx?_append, hNone,
    List.singleton_append, List.findIdx?_cons]
  simp

/- Text without a further separator is read by its data. -/
theorem decodeAddress_join
    {hrp data : ByteVec}
    (hHrp : hrp ≠ [])
    (hPrintable : ∀ char ∈ hrp, 33 ≤ char ∧ char ≤ 126)
    (hLength : 6 ≤ data.length)
    (hShort : hrp.length + data.length < 90)
    (hData : ∀ char ∈ data, char ≠ 0x31) :
    decodeAddress hrp (hrp ++ 0x31 :: data) =
      decodeData hrp data := by
  have hPositive : 0 < hrp.length :=
    List.length_pos_iff.mpr hHrp
  have hAllowed :
      ¬ (hrp.any fun char => char < 33 || char > 126) = true := by
    intro hAny
    rcases List.any_eq_true.mp hAny with ⟨char, hChar, hOut⟩
    rcases hPrintable char hChar with ⟨hLow, hHigh⟩
    rcases Bool.or_eq_true_iff.mp hOut with hBelow | hAbove
    · exact absurd (of_decide_eq_true hBelow)
        (UInt8.not_lt.mpr hLow)
    · exact absurd (of_decide_eq_true hAbove)
        (UInt8.not_lt.mpr hHigh)
  have hText :
      (hrp ++ 0x31 :: data).length =
        hrp.length + data.length + 1 := by
    rw [List.length_append, List.length_cons]
    omega
  unfold decodeAddress
  rw [hText, if_neg (by omega), separatorOf_join hrp data hData]
  dsimp only
  rw [if_neg (by omega), List.take_left, if_neg (by simp),
    if_neg hAllowed, List.drop_append,
    List.drop_eq_nil_of_le (Nat.le_succ hrp.length)]
  simp

/- A separator further on leaves more than the prefix before
   it. -/
theorem decodeAddress_separated
    (hrp before after : ByteVec)
    (hAfter : ∀ char ∈ after, char ≠ 0x31) :
    decodeAddress hrp
        (hrp ++ 0x31 :: (before ++ 0x31 :: after)) =
      none := by
  have hText :
      hrp ++ 0x31 :: (before ++ 0x31 :: after) =
        (hrp ++ 0x31 :: before) ++ 0x31 :: after := by
    simp
  have hLonger : hrp ++ 0x31 :: before ≠ hrp := by
    intro hSame
    have hLengths := congrArg List.length hSame
    rw [List.length_append, List.length_cons] at hLengths
    omega
  unfold decodeAddress
  rw [hText, separatorOf_join _ after hAfter]
  split
  · rfl
  dsimp only
  split
  · rfl
  rw [List.take_left, if_pos hLonger]

------------------------------------------------------------
-- The Data Part
------------------------------------------------------------

/- The values behind the data part, the checksum included. -/
def dataValues
    (hrp : ByteVec)
    (version : UInt8)
    (program : ByteVec) : ByteVec :=
  let fiveBit := version :: convert8To5 program
  fiveBit ++ computeChecksum5 (hrpExpand hrp) fiveBit

theorem dataPart_eq
    (hrp : ByteVec)
    (version : UInt8)
    (program : ByteVec) :
    dataPart hrp version program =
      (dataValues hrp version program).map charOf :=
  List.map_append.symm

theorem dataValues_lt
    (hrp program : ByteVec)
    {version : UInt8}
    (hVersion : version ≤ 16) :
    ∀ value ∈ dataValues hrp version program,
      value.toNat < 2 ^ 5 := by
  intro value hValue
  rcases List.mem_append.mp hValue with hFive | hCheck
  · rcases List.mem_cons.mp hFive with rfl | hProgram
    · have hNat := UInt8.le_iff_toNat_le.mp hVersion
      have hNumber : UInt8.toNat 16 = 16 := rfl
      omega
    · exact regroup8To5_lt program 0 (by decide) value hProgram
  · rcases List.mem_map.mp hCheck with ⟨place, _, rfl⟩
    exact group_lt _

theorem length_computeChecksum5
    (hrpExpanded data5bit : ByteVec) :
    (computeChecksum5 hrpExpanded data5bit).length = 6 := by
  unfold computeChecksum5
  rw [List.length_map, List.length_range]

theorem polyMod_dataValues
    (hrp program : ByteVec)
    (version : UInt8) :
    polyMod (hrpExpand hrp ++ dataValues hrp version program) =
      bech32mConst := by
  unfold dataValues
  rw [← List.append_assoc]
  exact polyMod_checksum _ _

/- The data part that is written is read. -/
theorem decodeData_dataPart
    (hrp : ByteVec)
    {version : UInt8}
    {program : ByteVec}
    (hVersion : version ≤ 16)
    (hProgram : program.length = addressProgramBytes) :
    decodeData hrp (dataPart hrp version program) =
      some { version, program } := by
  have hSmall := dataValues_lt hrp program hVersion
  have hNone :
      ¬ (dataValues hrp version program).any (· > 31) = true := by
    intro hAny
    rcases List.any_eq_true.mp hAny with ⟨value, hValue, hOut⟩
    have hNat := UInt8.lt_iff_toNat_lt.mp
      (of_decide_eq_true hOut)
    have hNumber : UInt8.toNat 31 = 31 := rfl
    have hBound := hSmall value hValue
    omega
  have hLength :
      (dataValues hrp version program).length =
        (version :: convert8To5 program).length + 6 := by
    unfold dataValues
    rw [List.length_append, length_computeChecksum5]
  have hPayload :
      (dataValues hrp version program).take
          ((dataValues hrp version program).length - 6) =
        version :: convert8To5 program := by
    rw [hLength, Nat.add_sub_cancel]
    exact List.take_left
  have hLow : ¬ version > 16 := UInt8.not_lt.mpr hVersion
  unfold decodeData
  dsimp only
  rw [dataPart_eq, map_charToValue hSmall, if_neg hNone,
    if_neg (by omega),
    if_neg (not_not_intro
      (polyMod_dataValues hrp program version)),
    hPayload]
  dsimp only
  rw [if_neg hLow, ← hProgram, convert5To8_convert8To5]
  rfl

/- Another value in one place is refused. -/
theorem decodeData_replaced
    (hrp before after : ByteVec)
    {value char : UInt8}
    (hValues :
      polyMod (hrpExpand hrp ++
          (before ++ value :: after).map charToValue) =
        bech32mConst)
    (hChar : charToValue char ≠ charToValue value) :
    decodeData hrp (before ++ char :: after) = none := by
  have hOther :
      polyMod (hrpExpand hrp ++
          (before ++ char :: after).map charToValue) ≠
        bech32mConst := by
    rw [← hValues, List.map_append, List.map_cons,
      List.map_append, List.map_cons, ← List.append_assoc,
      ← List.append_assoc]
    exact polyMod_replaced _ _ hChar
  unfold decodeData
  dsimp only
  split
  · rfl
  split
  · rfl
  rfl

theorem length_dataPart
    (hrp : ByteVec)
    (version : UInt8)
    {program : ByteVec}
    (hProgram : program.length = addressProgramBytes) :
    (dataPart hrp version program).length = 59 := by
  rcases length_convert8To5 program with
    ⟨padding, hPadding, hGroups⟩
  rw [hProgram] at hGroups
  rw [dataPart_eq, List.length_map]
  unfold dataValues
  rw [List.length_append, length_computeChecksum5,
    List.length_cons]
  unfold addressProgramBytes at hGroups
  omega

theorem dataPart_chars
    (hrp program : ByteVec)
    {version : UInt8}
    (hVersion : version ≤ 16) :
    ∀ char ∈ dataPart hrp version program,
      char ≠ 0x31 := by
  intro char hChar
  rw [dataPart_eq] at hChar
  rcases List.mem_map.mp hChar with ⟨value, hValue, rfl⟩
  exact charOf_ne_separator
    (dataValues_lt hrp program hVersion value hValue)

------------------------------------------------------------
-- Addresses Of The Wallet
------------------------------------------------------------

theorem hrpFor_cases
    (params : ChainParams) :
    hrpFor params = asciiBytes "tamr" ∨
      hrpFor params = asciiBytes "amr" := by
  unfold hrpFor
  split
  · exact Or.inl rfl
  · exact Or.inr rfl

theorem hrpFor_ne_nil
    (params : ChainParams) :
    hrpFor params ≠ [] := by
  rcases hrpFor_cases params with hHrp | hHrp <;>
    rw [hHrp] <;>
    decide

theorem hrpFor_printable
    (params : ChainParams) :
    ∀ char ∈ hrpFor params, 33 ≤ char ∧ char ≤ 126 := by
  rcases hrpFor_cases params with hHrp | hHrp <;>
    rw [hHrp] <;>
    decide +kernel

theorem length_hrpFor
    (params : ChainParams) :
    (hrpFor params).length ≤ 4 := by
  rcases hrpFor_cases params with hHrp | hHrp <;>
    rw [hHrp] <;>
    decide

theorem encodeAddress_eq
    (hrp program : ByteVec)
    {version : UInt8}
    (hVersion : version ≤ 16) :
    encodeAddress hrp version program =
      hrp ++ 0x31 :: dataPart hrp version program := by
  have hLow : ¬ version > 31 := by
    intro hHigh
    have hNat := UInt8.le_iff_toNat_le.mp hVersion
    have hHighNat := UInt8.lt_iff_toNat_lt.mp hHigh
    have hNumber : UInt8.toNat 16 = 16 := rfl
    have hLarge : UInt8.toNat 31 = 31 := rfl
    omega
  unfold encodeAddress
  exact if_neg hLow

theorem decodeAddress_encodeAddress
    (params : ChainParams)
    {version : UInt8}
    {program : ByteVec}
    (hVersion : version ≤ 16)
    (hProgram : program.length = addressProgramBytes) :
    decodeAddress (hrpFor params)
        (encodeAddress (hrpFor params) version program) =
      some { version, program } := by
  have hData :=
    length_dataPart (hrpFor params) version hProgram
  have hHrp := length_hrpFor params
  rw [encodeAddress_eq _ _ hVersion,
    decodeAddress_join (hrpFor_ne_nil params)
      (hrpFor_printable params) (by omega) (by omega)
      (dataPart_chars _ _ hVersion),
    decodeData_dataPart _ hVersion hProgram]

/- One character of the data part that is replaced, whether
   by another digit or by what is none. -/
theorem decodeAddress_replaced
    (params : ChainParams)
    {version : UInt8}
    {program before after : ByteVec}
    {value char : UInt8}
    (hVersion : version ≤ 16)
    (hProgram : program.length = addressProgramBytes)
    (hData : dataPart (hrpFor params) version program =
      before ++ value :: after)
    (hChar : charToValue char ≠ charToValue value) :
    decodeAddress (hrpFor params)
        (hrpFor params ++ 0x31 :: (before ++ char :: after)) =
      none := by
  have hChars := dataPart_chars (hrpFor params) program hVersion
  have hLength :=
    length_dataPart (hrpFor params) version hProgram
  have hHrp := length_hrpFor params
  have hValues :
      polyMod (hrpExpand (hrpFor params) ++
          (before ++ value :: after).map charToValue) =
        bech32mConst := by
    rw [← hData, dataPart_eq,
      map_charToValue (dataValues_lt _ _ hVersion)]
    exact polyMod_dataValues _ _ _
  rw [hData] at hChars hLength
  have hSameLength :
      (before ++ char :: after).length = 59 := by
    rw [← hLength]
    simp
  by_cases hSeparator : char = 0x31
  · rw [hSeparator]
    exact decodeAddress_separated _ before after
      fun other hOther =>
        hChars other (by simp [hOther])
  · have hOthers : ∀ other ∈ before ++ char :: after,
        other ≠ 0x31 := by
      intro other hOther
      rcases List.mem_append.mp hOther with hBefore | hRest
      · exact hChars other (List.mem_append_left _ hBefore)
      rcases List.mem_cons.mp hRest with rfl | hAfter
      · exact hSeparator
      · exact hChars other (by simp [hAfter])
    rw [decodeAddress_join (hrpFor_ne_nil params)
        (hrpFor_printable params) (by omega) (by omega)
        hOthers,
      decodeData_replaced _ before after hValues hChar]

/- A lock that has an address is named by it. -/
theorem addressToLock_lockToAddress
    (params : ChainParams)
    {lock : Lock}
    {address : ByteVec}
    (hAddress :
      lockToAddress lock (hrpFor params) = some address) :
    addressToLock address (hrpFor params) = some lock := by
  unfold lockToAddress at hAddress
  split at hAddress
  · cases hAddress
  rename_i hVersion
  split at hAddress
  · cases hAddress
  rename_i hProgram
  cases hAddress
  have hDecoded := decodeAddress_encodeAddress params
    (show addressVersionCondition ≤ 16 by decide)
    (of_not_not hProgram)
  unfold addressToLock
  rw [hDecoded, Option.map_some]
  rcases lock with ⟨version, program⟩
  have hLock : version = lockVersionConditionCommitment :=
    of_not_not hVersion
  rw [hLock]

theorem set_split
    (hrp data : ByteVec)
    {place : Nat}
    (hPlace : hrp.length < place)
    (hIn : place < (hrp ++ 0x31 :: data).length)
    (char : UInt8) :
    ∃ before after,
      data = before ++ (hrp ++ 0x31 :: data)[place] :: after ∧
        (hrp ++ 0x31 :: data).set place char =
          hrp ++ 0x31 :: (before ++ char :: after) := by
  rcases Nat.exists_eq_add_of_lt hPlace with ⟨inner, rfl⟩
  have hInner : inner < data.length := by
    rw [List.length_append, List.length_cons] at hIn
    omega
  have hChar :
      (hrp ++ 0x31 :: data)[hrp.length + inner + 1] =
        data[inner] := by
    simp [List.getElem_append_right, Nat.add_assoc]
  refine ⟨data.take inner, data.drop (inner + 1), ?_, ?_⟩
  · rw [hChar, List.getElem_cons_drop,
      List.take_append_drop]
  · rw [List.set_append_right _ _ (by omega), Nat.add_assoc,
      Nat.add_sub_cancel_left, List.set_cons_succ,
      List.set_eq_take_append_cons_drop, if_pos hInner]

/- What is written is read back, and what differs from it in
   the value of one character after the separator is
   refused. -/
theorem address_detects
    (params : ChainParams)
    (version : UInt8)
    (program : ByteVec)
    (hVersion : version ≤ 16)
    (hProgram : program.length = 32) :
    let hrp := hrpFor params
    let address := encodeAddress hrp version program
    decodeAddress hrp address = some { version, program } ∧
      ∀ place,
        (hIn : place < address.length) →
        hrp.length < place →
        ∀ char : UInt8,
          charToValue char ≠ charToValue address[place] →
          decodeAddress hrp (address.set place char) =
            none := by
  refine ⟨decodeAddress_encodeAddress params hVersion hProgram,
    ?_⟩
  intro place hIn hPlace char hChar
  have hText := encodeAddress_eq (hrpFor params) program
    hVersion
  revert hIn hChar
  rw [hText]
  intro hIn hChar
  rcases set_split (hrpFor params) _ hPlace hIn char with
    ⟨before, after, hData, hSet⟩
  rw [hSet]
  exact decodeAddress_replaced params hVersion hProgram hData
    hChar

namespace Sample

def zeroProgram : ByteVec := List.replicate 32 0

/- The digit after the version, as a `p`. -/
theorem address_detects_zero :
    decodeAddress (asciiBytes "amr")
          (encodeAddress (asciiBytes "amr") 1 zeroProgram) =
        some { version := 1, program := zeroProgram } ∧
      decodeAddress (asciiBytes "amr")
          ((encodeAddress (asciiBytes "amr") 1
            zeroProgram).set 5 0x70) =
        none := by
  have hDetects := address_detects mainnetParams 1 zeroProgram
    (by decide) (by decide)
  exact ⟨hDetects.1,
    hDetects.2 5 (by decide +kernel) (by decide) 0x70
      (by decide +kernel)⟩

end Sample

end Wallet

end Amarian
