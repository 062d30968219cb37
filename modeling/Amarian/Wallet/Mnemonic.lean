import Amarian.Crypto.Sha256
import Amarian.Lib.BitField
import Amarian.Wallet.Keys
import Amarian.Wallet.WordList

/-
  The seed of a wallet as words, and the way back.

  Key definitions include:
    * `Wallet.generateMnemonic`
    * `Wallet.seedFromMnemonic`
    * `Wallet.RoundTrips`

  Key theorems include:
    * `Wallet.findBip39Word_bip39Word`
    * `Wallet.packWords_mnemonic`
    * `Wallet.mnemonics_round_trip_iff`
-/

------------------------------------------------------------
-- Words
------------------------------------------------------------

namespace Amarian

namespace Wallet

open BitField

def bip39WordlistSize : Nat := 2048

def mnemonicWordCount : Nat := 24

def bip39WordCount : Nat := bip39Words.length

def findBip39Word
    (word : String) : Option Nat :=
  bip39Words.idxOf? word

/- The remainder is taken by the words that there are. -/
def bip39Word
    (index : Nat) : String :=
  if index ≥ bip39WordlistSize then
    ""
  else
    bip39Words.getD (index % bip39WordCount) ""

section Mnemonics

variable (c : Crypto)

/- The seed, and one byte of its hash. -/
def mnemonicBits
    (seed : MasterSeed) : ByteVec :=
  seed.bytes ++ [(c.sha256 seed.bytes).bytes.getD 0 0]

def wordIndex
    (seed : MasterSeed)
    (place : Nat) : Nat :=
  readGroup 11 (mnemonicBits c seed) place

def generateMnemonic
    (seed : MasterSeed) : List String :=
  (List.range mnemonicWordCount).map fun place =>
    bip39Word (wordIndex c seed place)

def packWords :
    ByteVec → Nat → List String → Option ByteVec
  | bits, _, [] => some bits
  | bits, place, word :: words =>
      match findBip39Word word with
      | none => none
      | some index =>
          packWords (writeGroup 11 bits place index)
            (place + 1) words

def seedFromMnemonic
    (words : List String) : Option MasterSeed :=
  if words.length ≠ mnemonicWordCount then
    none
  else
    match packWords (List.replicate 33 0) 0 words with
    | none => none
    | some bits =>
        if (c.sha256 (bits.take 32)).bytes.getD 0 0 ≠
            bits.getD 32 0 then
          none
        else
          some (.ofList (bits.take 32))

/- What a backup in words is for. -/
structure RoundTrips
    (seed : MasterSeed) : Prop where
  count : (generateMnemonic c seed).length = 24
  words :
    ∀ word ∈ generateMnemonic c seed, word ∈ bip39Words
  back :
    seedFromMnemonic c (generateMnemonic c seed) = some seed

/- That no word of the seed is the one that is missing. -/
def NoneMissing
    (seed : MasterSeed) : Prop :=
  ∀ place < 24, wordIndex c seed place ≠ 2047

end Mnemonics

------------------------------------------------------------
-- One Word
------------------------------------------------------------

section OneWord

variable {c : Crypto} {seed : MasterSeed}

theorem mod_wordCount_lt
    (index : Nat) :
    index % bip39WordCount < bip39Words.length := by
  refine Nat.mod_lt _ ?_
  rw [bip39WordCount, length_bip39Words]
  decide

theorem bip39Word_eq
    {index : Nat}
    (hIndex : index < 2048) :
    ∃ hLess : index % bip39WordCount < bip39Words.length,
      bip39Word index =
        bip39Words[index % bip39WordCount] := by
  have hSmall : ¬index ≥ bip39WordlistSize :=
    Nat.not_le.mpr hIndex
  refine ⟨mod_wordCount_lt index, ?_⟩
  rw [bip39Word, if_neg hSmall, List.getD_eq_getElem]

theorem bip39Word_mem
    {index : Nat}
    (hIndex : index < 2048) :
    bip39Word index ∈ bip39Words := by
  rcases bip39Word_eq hIndex with ⟨hLess, hWord⟩
  rw [hWord]
  exact List.getElem_mem hLess

/- A word is found where it was looked up. -/
theorem findBip39Word_bip39Word
    {index : Nat}
    (hIndex : index < 2048) :
    findBip39Word (bip39Word index) =
      some (index % 2047) := by
  rcases bip39Word_eq hIndex with ⟨hLess, hWord⟩
  have hCount : bip39WordCount = 2047 := length_bip39Words
  rw [findBip39Word, hWord, List.idxOf?_eq_some_iff]
  refine ⟨?_, ?_, ?_⟩
  · rw [← hCount]
    exact hLess
  · simp only [hCount]
  · intro before hBefore hSame
    have hPlace :=
      (List.getElem_inj nodup_bip39Words).mp hSame
    rw [hCount] at hPlace
    omega

theorem wordIndex_lt
    (place : Nat) :
    wordIndex c seed place < 2048 :=
  readGroup_lt _ _

end OneWord

------------------------------------------------------------
-- All Words
------------------------------------------------------------

section AllWords

variable {c : Crypto} {seed : MasterSeed}

/- By induction on the words. -/
theorem packWords_map
    {indexes : List Nat}
    (hIndexes : ∀ index ∈ indexes, index < 2048)
    (bits : ByteVec)
    (place : Nat) :
    packWords bits place (indexes.map bip39Word) =
      some
        (writeGroups 11 bits place
          (indexes.map (· % 2047))) := by
  induction indexes generalizing bits place with
  | nil => rfl
  | cons index indexes ih =>
      rw [List.forall_mem_cons] at hIndexes
      rw [List.map_cons, packWords,
        findBip39Word_bip39Word hIndexes.1]
      exact ih hIndexes.2 _ _

/- The bits that the words of a seed are read back as. -/
def readBack
    (c : Crypto)
    (seed : MasterSeed) : ByteVec :=
  writeGroups 11 (List.replicate 33 0) 0
    ((List.range 24).map fun place =>
      wordIndex c seed place % 2047)

theorem length_readBack :
    (readBack c seed).length = 33 := by
  rw [readBack, length_writeGroups, List.length_replicate]

theorem length_mnemonicBits :
    (mnemonicBits c seed).length = 33 := by
  rw [mnemonicBits, List.length_append, seed.size_eq]
  rfl

theorem packWords_mnemonic :
    packWords (List.replicate 33 0) 0
        (generateMnemonic c seed) =
      some (readBack c seed) := by
  have hWords :
      generateMnemonic c seed =
        ((List.range 24).map (wordIndex c seed)).map
          bip39Word := by
    rw [List.map_map]
    rfl
  rw [hWords, packWords_map, List.map_map]
  · rfl
  · intro index hIndex
    rcases List.mem_map.mp hIndex with ⟨place, -, rfl⟩
    exact wordIndex_lt place

theorem getBit_readBack
    {offset : Nat}
    (hOffset : offset < 264) :
    getBit (readBack c seed) offset =
      (wordIndex c seed (offset / 11) % 2047).testBit
        (10 - offset % 11) := by
  have hFits :
      (0 + ((List.range 24).map fun place =>
          wordIndex c seed place % 2047).length) * 11 ≤
        8 * (List.replicate 33 (0 : UInt8)).length := by
    rw [List.length_map, List.length_range,
      List.length_replicate]
  have hPlace : offset / 11 < 24 := by
    omega
  rw [readBack, getBit_writeGroups hFits (by decide),
    getBit_replicate, Bool.false_or,
    decide_eq_true (Nat.zero_le _), Bool.true_and,
    Nat.sub_zero, List.getD_eq_getElem _ _ (by simpa),
    List.getElem_map, List.getElem_range]

theorem testBit_wordIndex
    {offset : Nat} :
    (wordIndex c seed (offset / 11)).testBit
        (10 - offset % 11) =
      getBit (mnemonicBits c seed) offset := by
  have hOffset :
      offset / 11 * 11 + (11 - 1 - (10 - offset % 11)) =
        offset := by
    omega
  rw [wordIndex, testBit_readGroup, hOffset,
    decide_eq_true (by omega), Bool.true_and]

/- Where no word is missing, the bits come back. -/
theorem readBack_eq
    (hNone : NoneMissing c seed) :
    readBack c seed = mnemonicBits c seed := by
  refine ext_getBit
    (length_readBack.trans length_mnemonicBits.symm) ?_
  intro offset hOffset
  rw [length_readBack] at hOffset
  have hPlace : offset / 11 < 24 := by
    omega
  have hLess : wordIndex c seed (offset / 11) < 2047 :=
    Nat.lt_of_le_of_ne
      (Nat.le_of_lt_succ (wordIndex_lt _))
      (hNone _ hPlace)
  rw [getBit_readBack hOffset, Nat.mod_eq_of_lt hLess,
    testBit_wordIndex]

/- A missing word clears a bit of the seed. -/
theorem readBack_ne
    {place : Nat}
    (hPlace : place < 24)
    (hMissing : wordIndex c seed place = 2047) :
    (readBack c seed).take 32 ≠ seed.bytes := by
  intro hSame
  have hFirst : place * 11 / 11 = place :=
    Nat.mul_div_cancel _ (by decide)
  have hSet :
      getBit (mnemonicBits c seed) (place * 11) = true := by
    rw [← testBit_wordIndex, hFirst, hMissing,
      Nat.mul_mod_left]
    decide
  have hClear :
      getBit (readBack c seed) (place * 11) = false := by
    rw [getBit_readBack (by omega), hFirst, hMissing]
    exact Nat.zero_testBit _
  rw [mnemonicBits,
    getBit_append (by rw [seed.size_eq]; omega), ← hSame]
    at hSet
  have hParts := List.take_append_drop 32 (readBack c seed)
  rw [← hParts, getBit_append, hSet] at hClear
  · cases hClear
  · rw [List.length_take, length_readBack]
    omega

theorem length_generateMnemonic :
    (generateMnemonic c seed).length = 24 := by
  rw [generateMnemonic, List.length_map, List.length_range]
  rfl

/- The words themselves are never wrong. -/
theorem roundTrips_of_back
    (hBack :
      seedFromMnemonic c (generateMnemonic c seed) =
        some seed) :
    RoundTrips c seed where
  count := length_generateMnemonic
  words := by
    intro word hWord
    rcases List.mem_map.mp hWord with ⟨place, -, rfl⟩
    exact bip39Word_mem (wordIndex_lt place)
  back := hBack

theorem seedFromMnemonic_eq :
    seedFromMnemonic c (generateMnemonic c seed) =
      if (c.sha256 ((readBack c seed).take 32)).bytes.getD 0
            0 ≠
          (readBack c seed).getD 32 0 then
        none
      else
        some (.ofList ((readBack c seed).take 32)) := by
  have hCount :
      ¬(generateMnemonic c seed).length ≠
        mnemonicWordCount :=
    not_not_intro length_generateMnemonic
  rw [seedFromMnemonic, if_neg hCount, packWords_mnemonic]

theorem bytes_ofList
    {bytes : ByteVec}
    (hLength : bytes.length = 32) :
    (Bytes32.ofList bytes).bytes = bytes :=
  (List.take_append_of_le_length hLength.ge).trans
    (List.take_of_length_le hLength.le)

/- A seed comes back exactly when none of its words is missing. -/
theorem roundTrips_iff :
    RoundTrips c seed ↔ NoneMissing c seed := by
  have hLength :
      ((readBack c seed).take 32).length = 32 := by
    rw [List.length_take, length_readBack]
    rfl
  constructor
  · intro hRound place hPlace hMissing
    have hBack := hRound.back
    rw [seedFromMnemonic_eq] at hBack
    split at hBack
    · cases hBack
    · refine readBack_ne hPlace hMissing ?_
      rw [← bytes_ofList hLength, Option.some.inj hBack]
  · intro hNone
    have hSeed :
        (mnemonicBits c seed).take 32 = seed.bytes := by
      rw [mnemonicBits, ← seed.size_eq, List.take_left']
      rfl
    have hLast :
        (mnemonicBits c seed).getD 32 0 =
          (c.sha256 seed.bytes).bytes.getD 0 0 := by
      rw [mnemonicBits, List.getD_append_right _ _ _ _
        seed.size_eq.le, seed.size_eq]
      rfl
    refine roundTrips_of_back ?_
    rw [seedFromMnemonic_eq, readBack_eq hNone, hSeed,
      hLast, if_neg (not_not_intro rfl)]
    exact congrArg some
      (Bytes32.ext (bytes_ofList seed.size_eq))

/-
  Two seeds both come back, and from mnemonics of their own,
  exactly when neither needs the word that is missing.
-/
theorem mnemonics_round_trip_iff
    (c : Crypto)
    (seed other : MasterSeed) :
    (RoundTrips c seed ∧
        RoundTrips c other ∧
        (seed ≠ other →
          generateMnemonic c seed ≠
            generateMnemonic c other)) ↔
      NoneMissing c seed ∧ NoneMissing c other := by
  constructor
  · rintro ⟨hSeed, hOther, -⟩
    exact ⟨roundTrips_iff.mp hSeed, roundTrips_iff.mp hOther⟩
  · rintro ⟨hSeed, hOther⟩
    have hBack := roundTrips_iff.mpr hSeed
    have hAgain := roundTrips_iff.mpr hOther
    refine ⟨hBack, hAgain, ?_⟩
    intro hDifferent hSame
    have hFirst := hBack.back
    rw [hSame, hAgain.back] at hFirst
    exact hDifferent (Option.some.inj hFirst).symm

end AllWords

end Wallet

------------------------------------------------------------
-- Samples
------------------------------------------------------------

namespace Sample

open Wallet

def onesSeed : MasterSeed :=
  .ofList (List.replicate 32 0xFF)

/- Its words are found, and are not those of the seed. -/
theorem ones_not_restored :
    wordIndex .reference onesSeed 0 = 2047 ∧
      seedFromMnemonic .reference
          (generateMnemonic .reference onesSeed) ≠
        some onesSeed := by
  have hFirst :
      wordIndex .reference onesSeed 0 = 2047 := by
    decide +kernel
  refine ⟨hFirst, ?_⟩
  intro hBack
  exact roundTrips_iff.mp (roundTrips_of_back hBack) 0
    (by decide) hFirst

end Sample

end Amarian
