import Amarian.Rpc.Framing
import Mathlib.Data.List.TakeWhile

/-
  What is known of a request that is answered.

  Key definitions include:
    * `Rpc.headerLines`
    * `Rpc.Unambiguous`

  Key theorems include:
    * `Rpc.frameRequest_complete`
    * `Rpc.screen_eq_none`
    * `Rpc.answered_unambiguous_iff`
-/

------------------------------------------------------------
-- Header Lines
------------------------------------------------------------

namespace Amarian

namespace Rpc

open Incremental

/- The lines between the request line and the body. -/
def headerLines
    (bytes : ByteVec) : List ByteVec :=
  match find headerTerminator bytes with
  | none => []
  | some headerEnd =>
      ((splitLines (bytes.take headerEnd)).drop 1).filter
        (!·.isEmpty)

/- That what a line has before its colon is a name. -/
def names
    (name : ByteVec)
    (line : ByteVec) : Bool :=
  iequals (line.takeWhile (· ≠ 58)) name

/- No carriage return and no line feed. -/
def OneLine
    (text : ByteVec) : Prop :=
  13 ∉ text ∧ 10 ∉ text

/- Any two parsers find the same in such a request. -/
structure Unambiguous
    (request : HttpRequest) : Prop where
  length :
    request.countHeader (asciiBytes "Content-Length") = 1
  authorization :
    request.countHeader (asciiBytes "Authorization") = 1
  host : request.countHeader (asciiBytes "Host") = 1
  contentType :
    request.countHeader (asciiBytes "Content-Type") = 1
  coding :
    request.countHeader (asciiBytes "Transfer-Encoding") = 0
  plain : ∀ header ∈ request.headers, OneLine header.2

section Lines

variable {line name value : ByteVec}

theorem splitAtByte_eq_some
    {byte : UInt8}
    {text before after : ByteVec}
    (hSplit :
      splitAtByte byte text = some (before, after)) :
    before = text.takeWhile (· ≠ byte) ∧
      text = before ++ byte :: after := by
  unfold splitAtByte at hSplit
  split at hSplit
  · rename_i hMember
    cases hSplit
    refine ⟨rfl, ?_⟩
    have hWhole :=
      @List.takeWhile_append_dropWhile _ (· ≠ byte) text
    cases hRest : text.dropWhile (· ≠ byte) with
    | nil =>
        rw [hRest, List.append_nil] at hWhole
        rw [← hWhole] at hMember
        have hOther := List.mem_takeWhile_imp hMember
        exact absurd rfl (of_decide_eq_true hOther)
    | cons first rest =>
        have hFirst :=
          List.head_dropWhile_not (· ≠ byte) (l := text)
            (by rw [hRest]; exact List.cons_ne_nil _ _)
        simp only [hRest, List.head_cons] at hFirst
        have hHere := of_decide_eq_false hFirst
        rw [not_not] at hHere
        rw [hRest, hHere] at hWhole
        exact hWhole.symm
  · cases hSplit

/- Trimming takes spaces and tabs only. -/
theorem mem_trimOws
    {byte : UInt8}
    (hByte : isOws byte = false)
    (text : ByteVec) :
    byte ∈ trimOws text ↔ byte ∈ text := by
  have hDrop : ∀ other : ByteVec,
      byte ∈ other.dropWhile isOws ↔ byte ∈ other := by
    intro other
    constructor
    · exact fun hMember =>
        (List.dropWhile_suffix isOws).subset hMember
    · intro hMember
      rw [← @List.takeWhile_append_dropWhile _ isOws other,
        List.mem_append] at hMember
      rcases hMember with hSpace | hAfter
      · have hOws := List.mem_takeWhile_imp hSpace
        rw [hByte] at hOws
        cases hOws
      · exact hAfter
  rw [trimOws, List.mem_reverse, hDrop, List.mem_reverse,
    hDrop]

theorem oneLine_trimOws
    (text : ByteVec) :
    OneLine (trimOws text) ↔ OneLine text := by
  have hReturn : isOws 13 = false := by
    decide
  have hFeed : isOws 10 = false := by
    decide
  rw [OneLine, OneLine, mem_trimOws hReturn,
    mem_trimOws hFeed]

/- A name has no byte that ends a line. -/
theorem oneLine_of_token
    (hName : isTokenName name = true) :
    OneLine name := by
  rw [isTokenName, Bool.and_eq_true, List.all_eq_true]
    at hName
  constructor
  · intro hMember
    exact absurd (hName.2 13 hMember) (by decide)
  · intro hMember
    exact absurd (hName.2 10 hMember) (by decide)

theorem parseHeaderLine_eq_some
    (hParse : parseHeaderLine line = some (name, value)) :
    name = line.takeWhile (· ≠ 58) ∧
      (OneLine value ↔ OneLine line) := by
  unfold parseHeaderLine at hParse
  split at hParse
  · cases hParse
  rename_i byte rest
  split at hParse
  · cases hParse
  split at hParse
  · cases hParse
  rename_i before after hSplit
  split at hParse
  · cases hParse
  rename_i hToken
  cases hParse
  rw [Bool.not_eq_true, Bool.not_eq_false'] at hToken
  rcases splitAtByte_eq_some hSplit with ⟨hName, hLine⟩
  have hPlain := oneLine_of_token hToken
  refine ⟨hName, ?_⟩
  rw [oneLine_trimOws, hLine, OneLine, OneLine,
    List.mem_append, List.mem_append, List.mem_cons,
    List.mem_cons]
  constructor
  · rintro ⟨hReturn, hFeed⟩
    constructor
    · rintro (hBefore | hColon | hAfter)
      · exact hPlain.1 hBefore
      · cases hColon
      · exact hReturn hAfter
    · rintro (hBefore | hColon | hAfter)
      · exact hPlain.2 hBefore
      · cases hColon
      · exact hFeed hAfter
  · rintro ⟨hReturn, hFeed⟩
    exact ⟨fun hAfter => hReturn (Or.inr (Or.inr hAfter)),
      fun hAfter => hFeed (Or.inr (Or.inr hAfter))⟩

end Lines

------------------------------------------------------------
-- All Lines
------------------------------------------------------------

section Headers

variable {lines : List ByteVec}
variable {headers : List (ByteVec × ByteVec)}

/- One header for every line that has something on it. -/
theorem parseHeaderLines_eq_some
    (hParse : parseHeaderLines lines = some headers) :
    List.Forall₂
      (fun line header => parseHeaderLine line = some header)
      (lines.filter (!·.isEmpty)) headers := by
  induction lines generalizing headers with
  | nil =>
      cases hParse
      exact .nil
  | cons line lines ih =>
      rw [parseHeaderLines] at hParse
      rw [List.filter_cons]
      split at hParse
      · rename_i hEmpty
        rw [hEmpty]
        exact ih hParse
      · rename_i hSome
        rw [if_pos (Bool.not_eq_true' _ ▸
          Bool.not_eq_true _ ▸ hSome)]
        split at hParse
        · cases hParse
        rename_i header hHeader
        rcases Option.map_eq_some_iff.mp hParse with
          ⟨rest, hRest, rfl⟩
        exact .cons hHeader (ih hRest)

theorem countP_headers
    (hHeaders :
      List.Forall₂
        (fun line header =>
          parseHeaderLine line = some header)
        lines headers)
    (name : ByteVec) :
    headers.countP (iequals ·.1 name) =
      lines.countP (names name) := by
  induction hHeaders with
  | nil => rfl
  | cons hHeader _ ih =>
      rw [List.countP_cons, List.countP_cons, ih, names,
        (parseHeaderLine_eq_some hHeader).1]

theorem oneLine_headers
    (hHeaders :
      List.Forall₂
        (fun line header =>
          parseHeaderLine line = some header)
        lines headers) :
    (∀ header ∈ headers, OneLine header.2) ↔
      ∀ line ∈ lines, OneLine line := by
  induction hHeaders with
  | nil => simp
  | cons hHeader _ ih =>
      rw [List.forall_mem_cons, List.forall_mem_cons, ih,
        (parseHeaderLine_eq_some hHeader).2]

end Headers

------------------------------------------------------------
-- Answered Requests
------------------------------------------------------------

theorem readHead_eq_ok
    {head : ByteVec}
    {request : HttpRequest}
    {length : Nat}
    (hRead : readHead head = .ok (request, length)) :
    parseHead head = some request ∧
      request.countHeader (asciiBytes "Transfer-Encoding") =
        0 ∧
      request.countHeader (asciiBytes "Content-Length") =
        1 := by
  unfold readHead at hRead
  split at hRead
  · cases hRead
  rename_i found hHead
  split at hRead
  · cases hRead
  rename_i hCoding
  split at hRead
  · cases hRead
  rename_i hOnce
  dsimp only at hRead
  split at hRead
  · cases hRead
    exact ⟨hHead, not_not.mp hCoding, not_not.mp hOnce⟩
  · split at hRead
    · cases hRead
    · cases hRead

theorem parseHead_eq_some
    {head : ByteVec}
    {request : HttpRequest}
    (hHead : parseHead head = some request) :
    List.Forall₂
      (fun line header => parseHeaderLine line = some header)
      (((splitLines head).drop 1).filter (!·.isEmpty))
      request.headers := by
  unfold parseHead at hHead
  split at hHead
  · cases hHead
  rename_i line lines hLines
  split at hHead
  · cases hHead
  rcases Option.map_eq_some_iff.mp hHead with
    ⟨headers, hHeaders, rfl⟩
  rw [hLines]
  exact parseHeaderLines_eq_some hHeaders

/- What framing has made sure of. -/
theorem frameRequest_complete
    {bytes : ByteVec}
    (hComplete : (frameRequest bytes).state = .complete) :
    let request := (frameRequest bytes).request
    List.Forall₂
        (fun line header =>
          parseHeaderLine line = some header)
        (headerLines bytes) request.headers ∧
      request.countHeader (asciiBytes "Transfer-Encoding") =
        0 ∧
      request.countHeader (asciiBytes "Content-Length") =
        1 := by
  cases hFind : find headerTerminator bytes with
  | none =>
      rw [frameRequest, hFind] at hComplete
      dsimp only at hComplete
      split at hComplete
      · cases hComplete
      · cases hComplete
  | some headerEnd =>
      by_cases hSmall : headerEnd ≤ maxHeaderBytes
      · rw [frameRequest_found hFind hSmall] at hComplete ⊢
        rw [headerLines, hFind]
        rcases hRead : readHead (bytes.take headerEnd) with
          framed | ⟨request, length⟩
        · rw [hRead] at hComplete
          rcases readHead_error hRead with rfl | rfl
          · cases hComplete
          · cases hComplete
        · rw [hRead] at hComplete
          dsimp only at hComplete ⊢
          rw [readBody] at hComplete ⊢
          split at hComplete
          · cases hComplete
          rename_i hAll
          rw [if_neg hAll]
          rcases readHead_eq_ok hRead with
            ⟨hHead, hCoding, hOnce⟩
          have hLines := parseHead_eq_some hHead
          exact ⟨hLines, hCoding, hOnce⟩
      · rw [frameRequest, hFind] at hComplete
        dsimp only at hComplete
        rw [if_pos (Nat.not_le.mp hSmall)] at hComplete
        cases hComplete

/- What screening has made sure of. -/
theorem screen_eq_none
    {request : HttpRequest}
    {policy : AuthPolicy}
    (hScreen : screen request policy = none) :
    request.countHeader (asciiBytes "Authorization") = 1 ∧
      request.countHeader (asciiBytes "Host") = 1 ∧
      1 ≤ request.countHeader (asciiBytes "Content-Type") := by
  unfold screen at hScreen
  split at hScreen
  · cases hScreen
  rename_i hAuthorization
  split at hScreen
  · cases hScreen
  split at hScreen
  · cases hScreen
  rename_i hHost
  split at hScreen
  · cases hScreen
  split at hScreen
  · cases hScreen
  split at hScreen
  · cases hScreen
  split at hScreen
  · cases hScreen
  rename_i contentType hType
  refine ⟨not_not.mp hAuthorization, not_not.mp hHost, ?_⟩
  rcases Option.map_eq_some_iff.mp hType with
    ⟨header, hHeader, -⟩
  have hNamed := List.find?_some hHeader
  exact List.countP_pos_iff.mpr
    ⟨header, List.mem_of_find?_eq_some hHeader, hNamed⟩

/-
  A request that is answered is unambiguous exactly when it
  has one content type and no line of its header section has
  half a line end in it.
-/
theorem answered_unambiguous_iff
    {bytes : ByteVec}
    {policy : AuthPolicy}
    (hComplete : (frameRequest bytes).state = .complete)
    (hScreen :
      screen (frameRequest bytes).request policy = none) :
    Unambiguous (frameRequest bytes).request ↔
      (headerLines bytes).countP
          (names (asciiBytes "Content-Type")) ≤
        1 ∧
        ∀ line ∈ headerLines bytes, OneLine line := by
  rcases frameRequest_complete hComplete with
    ⟨hLines, hCoding, hLength⟩
  rcases screen_eq_none hScreen with
    ⟨hAuthorization, hHost, hType⟩
  rw [← countP_headers hLines, ← oneLine_headers hLines]
  constructor
  · intro hClear
    exact ⟨Nat.le_of_eq hClear.contentType, hClear.plain⟩
  · rintro ⟨hOnce, hPlain⟩
    exact
      { length := hLength
        authorization := hAuthorization
        host := hHost
        contentType := Nat.le_antisymm hOnce hType
        coding := hCoding
        plain := hPlain }

end Rpc

------------------------------------------------------------
-- Samples
------------------------------------------------------------

namespace Sample

open Rpc

def anyPolicy : AuthPolicy :=
  { expectedAuthorization := asciiBytes "Basic x"
    port := 8332 }

/- A request of the policy, with one more header line. -/
def requestWith
    (line : String) : ByteVec :=
  asciiBytes
    ("POST / HTTP/1.1\r\n" ++ "Host: localhost\r\n" ++
      "Authorization: Basic x\r\n" ++
      "Content-Type: application/json\r\n" ++ line ++
      "\r\n" ++ "Content-Length: 0\r\n\r\n")

/- A second content type, and a line feed in a value. -/
theorem ambiguous_answered :
    let typed :=
      frameRequest (requestWith "Content-Type: text/plain")
    let broken := frameRequest (requestWith "X: a\nY: b")
    (typed.state = .complete ∧
        screen typed.request anyPolicy = none ∧
        typed.request.countHeader
            (asciiBytes "Content-Type") =
          2) ∧
      broken.state = .complete ∧
        screen broken.request anyPolicy = none ∧
        ∃ header ∈ broken.request.headers,
          10 ∈ header.2 := by
  decide +kernel

theorem plain_answered :
    Unambiguous (frameRequest (requestWith "X: a")).request ↔
      (headerLines (requestWith "X: a")).countP
          (names (asciiBytes "Content-Type")) ≤
        1 ∧
        ∀ line ∈ headerLines (requestWith "X: a"),
          OneLine line :=
  answered_unambiguous_iff (by decide +kernel)
    (show screen _ anyPolicy = none by decide +kernel)

end Sample

end Amarian
