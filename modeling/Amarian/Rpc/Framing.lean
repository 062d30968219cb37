import Amarian.Rpc.Http

/-
  Framing a request that arrives in pieces.

  Key definitions include:
    * `Rpc.Oversized`
    * `Rpc.AnyPieces`

  Key theorems include:
    * `Rpc.frameRequest_append`
    * `Rpc.frameRequest_straddled`
    * `Rpc.anyPieces_iff`
-/

------------------------------------------------------------
-- Header Sections
------------------------------------------------------------

namespace Amarian

namespace Rpc

open Incremental

/-
  A header section in good form whose one length is a number,
  but a larger one than a request may have.
-/
def Oversized
    (head : ByteVec) : Prop :=
  ∃ request,
    parseHead head = some request ∧
      request.countHeader (asciiBytes "Transfer-Encoding") =
        0 ∧
      request.countHeader (asciiBytes "Content-Length") =
        1 ∧
      let text :=
        (request.header (asciiBytes "Content-Length")).getD
          []
      parseLength text maxRequestBytes = none ∧
        text.isEmpty = false ∧
        text.all isDigit = true

theorem readHead_tooLarge_iff
    {head : ByteVec} :
    readHead head =
        .error (refuse .tooLarge .payloadTooLarge) ↔
      Oversized head := by
  constructor
  · intro hRead
    unfold readHead at hRead
    split at hRead
    · cases hRead
    rename_i request hHead
    split at hRead
    · cases hRead
    rename_i hCoded
    split at hRead
    · cases hRead
    rename_i hOnce
    dsimp only at hRead
    split at hRead
    · cases hRead
    rename_i hLength
    split at hRead
    · rename_i hNumeric
      rw [Bool.and_eq_true, Bool.not_eq_true'] at hNumeric
      exact ⟨request, hHead, not_not.mp hCoded,
        not_not.mp hOnce, hLength, hNumeric.1, hNumeric.2⟩
    · cases hRead
  · rintro
      ⟨request, hHead, hCoded, hOnce, hLength, hSome, hAll⟩
    rw [readHead, hHead]
    dsimp only
    rw [if_neg (not_not_intro hCoded),
      if_neg (not_not_intro hOnce), hLength, hSome, hAll]
    rfl

/- A header section is never asked for more of. -/
theorem readHead_error
    {head : ByteVec}
    {framed : Framed}
    (hRead : readHead head = .error framed) :
    framed = refuse .tooLarge .payloadTooLarge ∨
      framed = refuse .malformed .badRequest := by
  unfold readHead at hRead
  dsimp only at hRead
  split at hRead
  · cases hRead
    exact Or.inr rfl
  split at hRead
  · cases hRead
    exact Or.inr rfl
  split at hRead
  · cases hRead
    exact Or.inr rfl
  split at hRead
  · cases hRead
  split at hRead
  · cases hRead
    exact Or.inl rfl
  · cases hRead
    exact Or.inr rfl

------------------------------------------------------------
-- One Prefix
------------------------------------------------------------

section Prefixes

variable {front rest : ByteVec} {headerEnd : Nat}

/- A body that is all there is read no further. -/
theorem readBody_append
    {bodyBegin length : Nat}
    {request : HttpRequest}
    (hDone :
      (readBody front bodyBegin request length).state ≠
        .needMore) :
    readBody front bodyBegin request length =
      readBody (front ++ rest) bodyBegin request length := by
  rw [readBody] at hDone
  split at hDone
  · exact absurd rfl hDone
  rename_i hLong
  have hFits : length ≤ (front.drop bodyBegin).length := by
    rw [List.length_drop]
    omega
  rw [readBody, readBody, if_neg hLong, if_neg (by
      rw [List.length_append]
      omega),
    List.drop_append_of_le_length (by omega),
    List.take_append_of_le_length hFits]

/- Once the header section has ended, its answer stands. -/
theorem frameRequest_append
    (hFind : find headerTerminator front = some headerEnd)
    (hDone : (frameRequest front).state ≠ .needMore) :
    frameRequest front = frameRequest (front ++ rest) := by
  have hAll := find_append hFind rest
  have hFits := find_fits hFind
  by_cases hSmall : headerEnd ≤ maxHeaderBytes
  · rw [frameRequest_found hFind hSmall] at hDone
    rw [frameRequest_found hFind hSmall,
      frameRequest_found hAll hSmall,
      List.take_append_of_le_length (by omega)]
    cases hRead : readHead (front.take headerEnd) with
    | error framed => rfl
    | ok found =>
        rw [hRead] at hDone
        exact readBody_append hDone
  · rw [frameRequest, frameRequest, hFind, hAll]
    dsimp only
    rw [if_pos (Nat.not_le.mp hSmall),
      if_pos (Nat.not_le.mp hSmall)]

theorem frameRequest_none
    (hFind : find headerTerminator front = none)
    (hDone : (frameRequest front).state ≠ .needMore) :
    maxHeaderBytes < front.length := by
  rw [frameRequest, hFind] at hDone
  dsimp only at hDone
  split at hDone
  · rename_i hLong
    exact hLong
  · exact absurd rfl hDone

/-
  Inside the terminator the front is refused as too large,
  which is right only for what is refused so anyway.
-/
theorem frameRequest_straddled
    {bytes : ByteVec}
    (hFind : find headerTerminator bytes = some headerEnd)
    (hSmall : headerEnd ≤ maxHeaderBytes) :
    frameRequest bytes =
        refuse .tooLarge .payloadTooLarge ↔
      Oversized (bytes.take headerEnd) := by
  rw [← readHead_tooLarge_iff,
    frameRequest_found hFind hSmall]
  cases hRead : readHead (bytes.take headerEnd) with
  | error framed =>
      exact ⟨congrArg Except.error, Except.error.inj⟩
  | ok found =>
      dsimp only
      rw [readBody]
      constructor
      · intro hRefuse
        split at hRefuse
        · cases hRefuse
        · cases hRefuse
      · exact fun hNo => nomatch hNo

end Prefixes

------------------------------------------------------------
-- All Pieces
------------------------------------------------------------

/- That some bytes have one answer, however they arrive. -/
structure AnyPieces
    (bytes : ByteVec) : Prop where
  fronts :
    ∀ front,
      front <+: bytes →
        (frameRequest front).state ≠ .needMore →
          frameRequest front = frameRequest bytes
  chunks :
    ∀ chunks : List ByteVec,
      chunks.flatten = bytes →
        listenTo chunks = frameRequest bytes

theorem waits_eq_false
    {framed : Framed} :
    framed.waits = false ↔ framed.state ≠ .needMore :=
  decide_eq_false_iff_not

/- The law about fronts is the law about pieces. -/
theorem AnyPieces.of_fronts
    {bytes : ByteVec}
    (hFronts :
      ∀ front,
        front <+: bytes →
          (frameRequest front).state ≠ .needMore →
            frameRequest front = frameRequest bytes) :
    AnyPieces bytes := by
  refine ⟨hFronts, ?_⟩
  rintro chunks rfl
  refine listen_settled ?_
  intro front hFront hDone
  exact hFronts front hFront (waits_eq_false.mp hDone)

/-
  The pieces do not matter exactly where no piece can end
  between the bound of the header section and the end of its
  terminator, or where the request is too large in any case.
-/
theorem anyPieces_iff
    (bytes : ByteVec) :
    AnyPieces bytes ↔
      ∀ headerEnd,
        find headerTerminator bytes = some headerEnd →
          8190 ≤ headerEnd →
            headerEnd ≤ 8192 →
              Oversized (bytes.take headerEnd) := by
  constructor
  · intro hAny headerEnd hFind hFrom hTo
    have hFits : headerEnd + 4 ≤ bytes.length :=
      find_fits hFind
    have hNone :
        find headerTerminator (bytes.take 8193) = none := by
      refine find_take hFind ?_
      rw [headerTerminator]
      simp only [List.length_cons, List.length_nil]
      omega
    have hFront :
        frameRequest (bytes.take 8193) =
          refuse .tooLarge .payloadTooLarge := by
      refine frameRequest_longer ?_ ?_
      · rw [hNone]
        intro _ hNo
        cases hNo
      · rw [List.length_take, maxHeaderBytes]
        omega
    have hSame := hAny.fronts _ (List.take_prefix _ _) (by
      rw [hFront]
      intro hNo
      cases hNo)
    exact (frameRequest_straddled hFind hTo).mp
      (hSame.symm.trans hFront)
  · intro hClear
    refine .of_fronts ?_
    rintro front ⟨rest, rfl⟩ hDone
    cases hFront : find headerTerminator front with
    | some headerEnd => exact frameRequest_append hFront hDone
    | none =>
        have hLong := frameRequest_none hFront hDone
        have hRefused :
            frameRequest front =
              refuse .tooLarge .payloadTooLarge := by
          rw [frameRequest, hFront]
          exact if_pos hLong
        rw [hRefused]
        cases hAll :
            find headerTerminator (front ++ rest) with
        | none =>
            rw [frameRequest, hAll]
            refine (if_pos ?_).symm
            rw [List.length_append]
            omega
        | some headerEnd =>
            have hEnd : front.length < headerEnd + 4 := by
              by_contra hInside
              have hCut := find_prefix
                (List.cons_ne_nil _ _) hAll
                (List.prefix_append front rest)
                (Nat.not_lt.mp hInside)
              cases hFront.symm.trans hCut
            rw [maxHeaderBytes] at hLong
            by_cases hTo : headerEnd ≤ maxHeaderBytes
            · exact ((frameRequest_straddled hAll hTo).mpr
                (hClear headerEnd hAll (by omega)
                  hTo)).symm
            · rw [frameRequest, hAll]
              exact (if_pos (Nat.not_le.mp hTo)).symm

end Rpc

------------------------------------------------------------
-- Samples
------------------------------------------------------------

namespace Sample

open Incremental Rpc

def firstLine : ByteVec := asciiBytes "POST / HTTP/1.1"

def lengthLine : ByteVec := asciiBytes "Content-Length: 0"

/- A header of so many bytes, with its name. -/
def longLine
    (count : Nat) : ByteVec :=
  88 :: 58 :: List.replicate count 97

/- A head that grows with one header. -/
def longHead
    (count : Nat) : ByteVec :=
  firstLine ++
    13 :: 10 :: (lengthLine ++ 13 :: 10 :: longLine count)

theorem longLine_free
    {byte : UInt8}
    (hByte : byte ≠ 88 ∧ byte ≠ 58 ∧ byte ≠ 97)
    (count : Nat) :
    byte ∉ longLine count := by
  intro hMember
  rcases List.mem_cons.mp hMember with hHere | hMember
  · exact hByte.1 hHere
  rcases List.mem_cons.mp hMember with hHere | hMember
  · exact hByte.2.1 hHere
  · exact hByte.2.2 (List.eq_of_mem_replicate hMember)

theorem length_longHead
    (count : Nat) :
    (longHead count).length = 38 + count := by
  rw [longHead, longLine]
  simp only [List.length_append, List.length_cons,
    List.length_replicate]
  have hFirst : firstLine.length = 15 := by
    decide
  have hLength : lengthLine.length = 17 := by
    decide
  omega

theorem firstLine_free : 13 ∉ firstLine := by
  decide

theorem lengthLine_free : 13 ∉ lengthLine := by
  decide

theorem find_longHead
    (count : Nat) :
    find headerTerminator
        (longHead count ++ headerTerminator) =
      some (38 + count) := by
  have hLast :
      find headerTerminator
          (longLine count ++ headerTerminator) =
        some (count + 2) := by
    rw [headerTerminator, find_skip (longLine_free
      (by decide) count), longLine, List.length_cons,
      List.length_cons, List.length_replicate]
    rfl
  have hNext :
      (lengthLine ++ 13 :: 10 ::
        (longLine count ++ headerTerminator)).head? ≠
          some 13 := by
    have hHead : lengthLine.head? = some 67 := by
      decide
    rw [List.head?_append, hHead]
    exact fun hNo => absurd (Option.some.inj hNo) (by decide)
  have hAfter :
      (longLine count ++ headerTerminator).head? ≠
        some 13 :=
    fun hNo => absurd (Option.some.inj hNo) (by decide)
  rw [longHead, List.append_assoc, List.cons_append,
    List.cons_append, List.append_assoc, List.cons_append,
    List.cons_append, find_line firstLine_free hNext,
    find_line lengthLine_free hAfter, hLast]
  have hFirst : firstLine.length = 15 := by
    decide
  have hLength : lengthLine.length = 17 := by
    decide
  rw [Option.map_some, Option.map_some, hFirst, hLength]
  exact congrArg some (by omega)

/- What the framer reads from it. -/
def longRequest
    (count : Nat) : HttpRequest :=
  { method := asciiBytes "POST"
    target := asciiBytes "/"
    headers :=
      [(asciiBytes "Content-Length", asciiBytes "0"),
        ([88], trimOws (List.replicate count 97))] }

theorem parseHead_longHead
    (count : Nat) :
    parseHead (longHead count) = some (longRequest count) := by
  have hFirst :
      parseRequestLine firstLine =
        some (asciiBytes "POST", asciiBytes "/") := by
    decide
  have hLength :
      parseHeaderLine lengthLine =
        some
          (asciiBytes "Content-Length", asciiBytes "0") := by
    decide
  have hLong :
      parseHeaderLine (longLine count) =
        some ([88], trimOws (List.replicate count 97)) := by
    have hColon : 58 ∈ longLine count :=
      List.mem_cons_of_mem _ List.mem_cons_self
    have hSplit :
        splitAtByte 58 (longLine count) =
          some ([88], List.replicate count 97) := by
      rw [splitAtByte, if_pos hColon]
      rfl
    rw [longLine] at hSplit ⊢
    rw [parseHeaderLine, hSplit]
    rfl
  rw [parseHead, longHead, splitLines_line firstLine_free,
    splitLines_line lengthLine_free,
    splitLines_free (longLine_free (by decide) count)]
  dsimp only
  rw [hFirst]
  dsimp only
  have hSome : ¬(longLine count).isEmpty = true :=
    Bool.false_ne_true
  rw [parseHeaderLines, if_neg (by decide), hLength,
    parseHeaderLines, if_neg hSome, hLong]
  rfl

theorem readHead_longHead
    (count : Nat) :
    readHead (longHead count) = .ok (longRequest count, 0) := by
  rw [readHead, parseHead_longHead]
  rfl

/- One answer to the whole of it, another to a front. -/
theorem long_head_cut :
    let bytes := longHead 8152 ++ headerTerminator
    (frameRequest (bytes.take 8193)).state = .tooLarge ∧
      (frameRequest bytes).state = .complete ∧
      (listenTo [bytes.take 8193, bytes.drop 8193]).state =
        .tooLarge ∧
      (listenTo [bytes]).state = .complete := by
  intro bytes
  have hFind : find headerTerminator bytes = some 8190 :=
    find_longHead 8152
  have hFront :
      frameRequest (bytes.take 8193) =
        refuse .tooLarge .payloadTooLarge := by
    refine frameRequest_longer ?_ ?_
    · rw [find_take hFind (by decide)]
      exact fun _ hNo => nomatch hNo
    · rw [List.length_take, List.length_append,
        length_longHead]
      decide
  have hAll : (frameRequest bytes).state = .complete := by
    have hHead : bytes.take 8190 = longHead 8152 :=
      List.take_left' (length_longHead 8152)
    rw [frameRequest_found hFind (by decide), hHead,
      readHead_longHead]
    dsimp only
    rw [readBody, if_neg]
    rw [List.length_append, length_longHead]
    decide
  refine ⟨congrArg Framed.state hFront, hAll, ?_, ?_⟩
  · rw [listenTo, Incremental.listen, List.nil_append, hFront]
    rfl
  · rw [listenTo, Incremental.listen, List.nil_append, if_neg]
    · exact hAll
    · rw [Framed.waits, hAll]
      decide

end Sample

end Amarian
