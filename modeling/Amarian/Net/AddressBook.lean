import Amarian.Lib.Extraction
import Amarian.Lib.Framing
import Amarian.Net.Connection
import Amarian.Util.Hex
import Mathlib.Data.List.Nodup
import Mathlib.Data.Set.Function

/-
  The addresses a node has heard of, and the file it keeps
  them in.

  Key definitions include:
    * `saveAddresses`
    * `loadAddresses`
    * `Faithful`

  Key theorems include:
    * `loadAddresses_saveAddresses`
    * `foldl_addAddress_eq_iff`
    * `addressBook_faithful_iff`
-/

------------------------------------------------------------
-- The File
------------------------------------------------------------

namespace Amarian

namespace Net

open Extraction Framing

/- One line: version, port and the address in hexadecimal. -/
def saveAddress
    (address : NetworkAddress) : List Char :=
  Nat.toDigits 10 address.addrVer.toNat ++
    ' ' :: (Nat.toDigits 10 address.port.toNat ++
      ' ' :: (address.address.flatMap hexPair ++ ['\n']))

/- The file that `Save` writes. -/
def saveAddresses
    (addresses : List NetworkAddress) : List Char :=
  addresses.flatMap saveAddress

/- Two characters, zero if they are no number. -/
def readByte
    (pair : List Char) : UInt8 :=
  match readUnsigned 16 (2 ^ 32) pair with
  | none => 0
  | some (byte, _) => UInt8.ofNat byte

def readBytes
    (hexAddress : List Char) : ByteVec :=
  (List.range 16).map fun place =>
    readByte ((hexAddress.drop (place * 2)).take 2)

/- The first record that cannot be read ends the file. -/
def readRecord
    (text : List Char) : Step Char NetworkAddress Unit :=
  match readUnsigned 10 (2 ^ 32) text with
  | none => .stop ()
  | some (version, afterVersion) =>
      match readUnsigned 10 (2 ^ 32) afterVersion with
      | none => .stop ()
      | some (port, afterPort) =>
          match readWord afterPort with
          | none => .stop ()
          | some (hexAddress, rest) =>
              if hexAddress.length = 32 then
                .item
                  { addrVer := UInt8.ofNat version
                    address := readBytes hexAddress
                    port := UInt16.ofNat port } rest
              else
                .stop ()

/- `Load` reads records until the first bad one. -/
def loadAddresses
    (addresses : List NetworkAddress)
    (text : List Char) : List NetworkAddress :=
  (transcript readRecord text).1.foldl addAddress addresses

theorem readRecord_shrinks :
    Shrinks readRecord := by
  intro text address rest hItem
  unfold readRecord at hItem
  split at hItem
  · cases hItem
  rename_i version afterVersion hVersion
  split at hItem
  · cases hItem
  rename_i port afterPort hPort
  split at hItem
  · cases hItem
  rename_i hexAddress left hWord
  split at hItem
  · cases hItem
    have hFirst := length_of_readUnsigned hVersion
    have hSecond := length_of_readUnsigned hPort
    have hThird := length_of_readWord hWord
    omega
  · cases hItem

------------------------------------------------------------
-- Reading What Was Saved
------------------------------------------------------------

theorem readByte_hexPair
    (byte : UInt8) :
    readByte (hexPair byte) = byte := by
  have hAll :
      ∀ value < 256,
        readByte (hexPair (UInt8.ofNat value)) =
          UInt8.ofNat value := by
    decide +kernel
  have hByte := hAll byte.toNat byte.toNat_lt
  rw [UInt8.ofNat_toNat] at hByte
  exact hByte

theorem flatMap_hexPair_pair
    {bytes : ByteVec}
    {place : Nat}
    {byte : UInt8}
    (hByte : bytes[place]? = some byte) :
    ((bytes.flatMap hexPair).drop (place * 2)).take 2 =
      hexPair byte := by
  induction bytes generalizing place with
  | nil => cases hByte
  | cons first bytes ih =>
      rw [List.flatMap_cons]
      cases place with
      | zero =>
          cases hByte
          rw [Nat.zero_mul, List.drop_zero,
            List.take_left' (by rfl)]
      | succ place =>
          rw [Nat.succ_mul, Nat.add_comm, ← List.drop_drop,
            List.drop_left' (by rfl)]
          exact ih hByte

theorem readBytes_flatMap
    {bytes : ByteVec}
    (hLength : bytes.length = 16) :
    readBytes (bytes.flatMap hexPair) = bytes := by
  apply List.ext_getElem
  · rw [readBytes, List.length_map, List.length_range,
      hLength]
  · intro place hPlace hByte
    simp only [readBytes, List.getElem_map,
      List.getElem_range]
    rw [flatMap_hexPair_pair (List.getElem?_eq_getElem hByte),
      readByte_hexPair]

theorem hexPair_plain
    (byte : UInt8) :
    ∀ char ∈ hexPair byte, isSpace char = false := by
  have hAll :
      ∀ value < 16, isSpace (hexDigit value) = false := by
    decide
  have hLess := byte.toNat_lt
  intro char hChar
  simp only [hexPair, List.mem_cons, List.not_mem_nil,
    or_false] at hChar
  rcases hChar with rfl | rfl
  · exact hAll _ (by omega)
  · exact hAll _ (by omega)

/- One record, whatever the file holds behind it. -/
theorem readRecord_saveAddress
    {address : NetworkAddress}
    (hFits : address.Fits)
    (rest : List Char) :
    readRecord (saveAddress address ++ rest) =
      .item address ('\n' :: rest) := by
  have hSpace :
      ∀ tail : List Char, ∀ char ∈ (' ' :: tail).head?,
        isDigit 10 char = false := by
    rintro tail _ ⟨⟩
    rfl
  have hVersion := readUnsigned_toDigits
    (Nat.lt_trans address.addrVer.toNat_lt
      (show 2 ^ 8 < 2 ^ 32 by decide))
    (hSpace (Nat.toDigits 10 address.port.toNat ++
      ' ' :: (address.address.flatMap hexPair ++
        '\n' :: rest)))
  have hPort := readUnsigned_toDigits
    (Nat.lt_trans address.port.toNat_lt
      (show 2 ^ 16 < 2 ^ 32 by decide))
    (hSpace (address.address.flatMap hexPair ++
      '\n' :: rest))
  have hLength :
      (address.address.flatMap hexPair).length = 32 := by
    have hSixteen : address.address.length = 16 := hFits
    simp [List.length_flatMap, hexPair, hSixteen]
  have hWord :
      readWord (address.address.flatMap hexPair ++
          '\n' :: rest) =
        some (address.address.flatMap hexPair,
          '\n' :: rest) := by
    apply readWord_append
    · rw [← List.length_pos_iff, hLength]
      decide
    · intro char hChar
      rcases List.mem_flatMap.mp hChar with
        ⟨byte, -, hPair⟩
      exact hexPair_plain byte char hPair
    · rintro _ ⟨⟩
      rfl
  have hText :
      saveAddress address ++ rest =
        Nat.toDigits 10 address.addrVer.toNat ++
          ' ' :: (Nat.toDigits 10 address.port.toNat ++
            ' ' :: (address.address.flatMap hexPair ++
              '\n' :: rest)) := by
    simp [saveAddress]
  rw [hText, readRecord, hVersion]
  dsimp only
  rw [readUnsigned_blank (by rfl), hPort]
  dsimp only
  rw [readWord_blank (by rfl), hWord]
  dsimp only
  rw [if_pos hLength, readBytes_flatMap hFits,
    UInt8.ofNat_toNat, UInt16.ofNat_toNat]

theorem readRecord_blank
    (rest : List Char) :
    readRecord ('\n' :: rest) = readRecord rest := by
  rw [readRecord, readUnsigned_blank (by rfl), readRecord]

theorem transcript_blank
    (rest : List Char) :
    transcript readRecord ('\n' :: rest) =
      transcript readRecord rest := by
  cases hRecord : readRecord rest with
  | stop ending =>
      rw [transcript_stop (readRecord_blank rest ▸ hRecord),
        transcript_stop hRecord]
  | item address left =>
      rw [transcript_item readRecord_shrinks
        (readRecord_blank rest ▸ hRecord),
        transcript_item readRecord_shrinks hRecord]

/- By induction on the book. -/
theorem transcript_saveAddresses
    {book : List NetworkAddress}
    (hFits : ∀ address ∈ book, address.Fits) :
    (transcript readRecord (saveAddresses book)).1 =
      book := by
  induction book with
  | nil => rfl
  | cons address book ih =>
      rw [List.forall_mem_cons] at hFits
      rw [saveAddresses, List.flatMap_cons,
        transcript_item readRecord_shrinks
          (readRecord_saveAddress hFits.1 _),
        transcript_blank]
      exact congrArg (List.cons address) (ih hFits.2)

------------------------------------------------------------
-- Books
------------------------------------------------------------

/- An address that the book takes. -/
structure Acceptable
    (address : NetworkAddress) : Prop where
  fits : address.Fits
  version : address.addrVer = 4 ∨ address.addrVer = 6
  port : address.port ≠ 0

/- What every address book of a running node keeps. -/
structure BookOk
    (book : List NetworkAddress) : Prop where
  acceptable : ∀ address ∈ book, Acceptable address
  apart : (book.map addressKey).Nodup
  room : book.length ≤ 1000

theorem BookOk.empty :
    BookOk [] where
  acceptable := fun _ hNone => nomatch hNone
  apart := List.nodup_nil
  room := Nat.zero_le _

section Adding

variable {book : List NetworkAddress}
variable {address : NetworkAddress}

theorem any_addressKey :
    (book.any fun known =>
      addressKey known == addressKey address) = true ↔
      addressKey address ∈ book.map addressKey := by
  rw [List.any_eq_true, List.mem_map]
  simp only [beq_iff_eq]

/- What one call does, if the address is acceptable. -/
theorem addAddress_eq
    (hAddress : Acceptable address) :
    addAddress book address =
      if addressKey address ∈ book.map addressKey then
        book
      else if book.length ≥ 1000 then
        book.drop 1 ++ [address]
      else
        book ++ [address] := by
  have hTaken :
      ¬((address.addrVer ≠ 4 ∧ address.addrVer ≠ 6) ∨
        address.port = 0) := by
    rintro (⟨hFour, hSix⟩ | hNone)
    · exact hAddress.version.elim hFour hSix
    · exact hAddress.port hNone
  rw [addAddress, if_neg hTaken]
  simp only [any_addressKey]

theorem BookOk.append
    (hBook : BookOk book)
    (hAddress : Acceptable address)
    (hNew : addressKey address ∉ book.map addressKey)
    (hRoom : book.length < 1000) :
    BookOk (book ++ [address]) where
  acceptable := by
    intro other hOther
    rcases List.mem_append.mp hOther with hOld | hLast
    · exact hBook.acceptable other hOld
    · rw [List.mem_singleton.mp hLast]
      exact hAddress
  apart := by
    rw [List.map_append, List.map_singleton]
    exact List.nodup_append.mpr
      ⟨hBook.apart, List.nodup_singleton _, fun key hKey _ hLast
        hSame => by
          rw [List.mem_singleton.mp hLast] at hSame
          exact hNew (hSame ▸ hKey)⟩
  room := by
    rw [List.length_append, List.length_singleton]
    omega

theorem BookOk.drop
    (hBook : BookOk book) :
    BookOk (book.drop 1) where
  acceptable := fun other hOther =>
    hBook.acceptable other (List.mem_of_mem_drop hOther)
  apart := by
    rw [List.map_drop]
    exact hBook.apart.sublist (List.drop_sublist ..)
  room := by
    have hRoom := hBook.room
    rw [List.length_drop]
    omega

theorem BookOk.add
    (hBook : BookOk book)
    (hAddress : Acceptable address) :
    BookOk (addAddress book address) := by
  rw [addAddress_eq hAddress]
  split
  · exact hBook
  rename_i hNew
  split
  · refine hBook.drop.append hAddress ?_ ?_
    · intro hKey
      rw [List.map_drop] at hKey
      exact hNew (List.mem_of_mem_drop hKey)
    · have hRoom := hBook.room
      rw [List.length_drop]
      omega
  · rename_i hRoom
    exact hBook.append hAddress hNew (Nat.not_le.mp hRoom)

theorem BookOk.foldl
    (hBook : BookOk book)
    {offered : List NetworkAddress}
    (hOffered : ∀ address ∈ offered, Acceptable address) :
    BookOk (offered.foldl addAddress book) := by
  induction offered generalizing book with
  | nil => exact hBook
  | cons address offered ih =>
      rw [List.forall_mem_cons] at hOffered
      exact ih (hBook.add hOffered.1) hOffered.2

end Adding

/- A book taken in again, address by address, is itself. -/
theorem BookOk.again
    {front book : List NetworkAddress}
    (hBook : BookOk (front ++ book)) :
    book.foldl addAddress front = front ++ book := by
  induction book generalizing front with
  | nil => exact (List.append_nil front).symm
  | cons address book ih =>
      have hAddress := hBook.acceptable address
        (List.mem_append_right _ List.mem_cons_self)
      have hApart := hBook.apart
      have hRoom := hBook.room
      rw [List.map_append, List.nodup_append] at hApart
      rw [List.length_append, List.length_cons] at hRoom
      have hNew :
          addressKey address ∉ front.map addressKey :=
        fun hKey => hApart.2.2 _ hKey _
          (List.mem_map_of_mem List.mem_cons_self) rfl
      have hNext :
          addAddress front address = front ++ [address] := by
        rw [addAddress_eq hAddress, if_neg hNew,
          if_neg (by omega)]
      rw [List.foldl_cons, hNext, ih, List.append_assoc,
        List.singleton_append]
      rw [List.append_assoc, List.singleton_append]
      exact hBook

/- Every book is the same after a restart. -/
theorem loadAddresses_saveAddresses
    {book : List NetworkAddress}
    (hBook : BookOk book) :
    loadAddresses [] (saveAddresses book) = book := by
  rw [loadAddresses, transcript_saveAddresses fun address
    hAddress => (hBook.acceptable address hAddress).fits]
  exact BookOk.again hBook

------------------------------------------------------------
-- What A Book Should Hold
------------------------------------------------------------

/-
  The book holds what was offered, each address once and in
  the order of first arrival, and so does the book that is
  loaded from its file.
-/
def Faithful
    (offered : List NetworkAddress) : Prop :=
  let book := offered.foldl addAddress []
  book = offered.eraseDups ∧
    loadAddresses [] (saveAddresses book) = book

theorem eraseDups_concat
    (offered : List NetworkAddress)
    (address : NetworkAddress) :
    (offered ++ [address]).eraseDups =
      if address ∈ offered then
        offered.eraseDups
      else
        offered.eraseDups ++ [address] := by
  rw [List.eraseDups_append]
  by_cases hKnown : address ∈ offered
  · rw [if_pos hKnown]
    simp [List.removeAll, hKnown]
  · rw [if_neg hKnown]
    simp [List.removeAll, hKnown, List.eraseDups_cons]

/- By induction, the last address being the newest. -/
theorem foldl_addAddress_of_injOn
    {offered : List NetworkAddress}
    (hOffered : ∀ address ∈ offered, Acceptable address)
    (hFew : offered.eraseDups.length ≤ 1000)
    (hKeys :
      Set.InjOn addressKey {address | address ∈ offered}) :
    offered.foldl addAddress [] = offered.eraseDups := by
  induction offered using List.reverseRecOn with
  | nil => rfl
  | append_singleton offered address ih =>
      have hHere : address ∈ offered ++ [address] :=
        List.mem_append_right _ List.mem_cons_self
      have hBefore :
          ∀ other ∈ offered, other ∈ offered ++ [address] :=
        fun _ hOther => List.mem_append_left _ hOther
      rw [eraseDups_concat] at hFew
      have hLess :
          offered.eraseDups.length ≤ 1000 := by
        split at hFew
        · exact hFew
        · rw [List.length_append] at hFew
          omega
      have hSoFar := ih
        (fun other hOther =>
          hOffered other (hBefore other hOther))
        hLess
        (hKeys.mono hBefore)
      have hKnown :
          addressKey address ∈
              offered.eraseDups.map addressKey ↔
            address ∈ offered := by
        rw [List.mem_map]
        constructor
        · rintro ⟨other, hOther, hSame⟩
          rw [List.mem_eraseDups] at hOther
          rw [← hKeys (hBefore other hOther) hHere hSame]
          exact hOther
        · intro hOld
          exact ⟨address, List.mem_eraseDups.mpr hOld, rfl⟩
      rw [List.foldl_append, hSoFar, List.foldl_cons,
        List.foldl_nil, addAddress_eq (hOffered _ hHere),
        eraseDups_concat]
      simp only [hKnown]
      split
      · rfl
      · rename_i hNew
        rw [if_neg hNew, List.length_append,
          List.length_singleton] at hFew
        rw [if_neg (by omega)]

/-
  For every sequence of acceptable addresses, at most a
  thousand different ones: the book is faithful exactly if no
  two different addresses have the same key.
-/
theorem addressBook_faithful_iff
    (offered : List NetworkAddress)
    (hOffered : ∀ address ∈ offered, Acceptable address)
    (hFew : offered.eraseDups.length ≤ 1000) :
    Faithful offered ↔
      Set.InjOn addressKey {address | address ∈ offered} := by
  have hBook := BookOk.empty.foldl hOffered
  constructor
  · rintro ⟨hHolds, -⟩ address hAddress other hOther hSame
    have hApart := hBook.apart
    rw [hHolds] at hApart
    exact List.inj_on_of_nodup_map hApart
      (List.mem_eraseDups.mpr hAddress)
      (List.mem_eraseDups.mpr hOther) hSame
  · intro hKeys
    exact ⟨foldl_addAddress_of_injOn hOffered hFew hKeys,
      loadAddresses_saveAddresses hBook⟩

namespace Sample

/- An address of the older kind, in its newer form. -/
def mapped
    (first second : UInt8) : NetworkAddress :=
  { addrVer := 4
    address :=
      List.replicate 10 0 ++
        [0xFF, 0xFF, first, second, 0, 1]
    port := 12500 }

theorem mapped_acceptable
    (first second : UInt8) :
    Acceptable (mapped first second) where
  fits := rfl
  version := .inl rfl
  port := by
    change (12500 : UInt16) ≠ 0
    decide

theorem apart_faithful :
    Faithful [mapped 1 18, mapped 17 3] := by
  refine (addressBook_faithful_iff [mapped 1 18, mapped 17 3]
    ?_ (by decide)).mpr ?_
  · intro address hAddress
    rcases List.mem_cons.mp hAddress with rfl | hAddress
    · exact mapped_acceptable _ _
    · rw [List.mem_singleton.mp hAddress]
      exact mapped_acceptable _ _
  · have hKeys :
        ∀ address ∈ [mapped 1 18, mapped 17 3],
          ∀ other ∈ [mapped 1 18, mapped 17 3],
            addressKey address = addressKey other →
              address = other := by
      decide
    exact fun address hAddress other hOther hSame =>
      hKeys address hAddress other hOther hSame

/- 1.18.0.1 and 17.2.0.1 are one address to the book. -/
theorem confused_not_faithful :
    (∀ address ∈ [mapped 1 18, mapped 17 2],
      Acceptable address) ∧
      [mapped 1 18, mapped 17 2].eraseDups.length = 2 ∧
      [mapped 1 18, mapped 17 2].foldl addAddress [] =
        [mapped 1 18] ∧
      ¬Faithful [mapped 1 18, mapped 17 2] := by
  have hBook :
      [mapped 1 18, mapped 17 2].foldl addAddress [] =
        [mapped 1 18] := by
    decide +kernel
  refine ⟨?_, by decide, hBook, ?_⟩
  · intro address hAddress
    rcases List.mem_cons.mp hAddress with rfl | hAddress
    · exact mapped_acceptable _ _
    · rw [List.mem_singleton.mp hAddress]
      exact mapped_acceptable _ _
  · rintro ⟨hHolds, -⟩
    rw [hBook] at hHolds
    revert hHolds
    decide

end Sample

end Net

end Amarian
