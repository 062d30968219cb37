import Amarian.Lib.Decimal
import Amarian.Lib.Incremental
import Amarian.Util.Bytes

/-
  The requests of the RPC interface: how one is framed in
  the bytes that have arrived, and which are refused.

  The text of a request is its bytes.

  Key definitions include:
    * `Rpc.frameRequest`
    * `Rpc.listen`
    * `Rpc.screen`
    * `Rpc.renderResponse`

  Key theorems include:
    * `Rpc.frameRequest_found`
    * `Rpc.frameRequest_longer`
-/

------------------------------------------------------------
-- Requests
------------------------------------------------------------

namespace Amarian

namespace Rpc

open Incremental

def maxRequestBytes : Nat := 8 * 2 ^ 20

def maxHeaderBytes : Nat := 8192

def headerTerminator : ByteVec := [13, 10, 13, 10]

inductive HttpStatus where
  | ok
  | badRequest
  | unauthorized
  | forbidden
  | notFound
  | methodNotAllowed
  | payloadTooLarge
  | unsupportedMediaType
deriving DecidableEq

/- What the framer knows of the request so far. -/
inductive FramingState where
  | complete
  | needMore
  | malformed
  | tooLarge
deriving DecidableEq

structure HttpRequest where
  method : ByteVec := []
  target : ByteVec := []
  headers : List (ByteVec × ByteVec) := []
  body : ByteVec := []
deriving DecidableEq

/- The request, or how it is refused. -/
structure Framed where
  state : FramingState := .needMore
  request : HttpRequest := {}
  status : HttpStatus := .badRequest
  consumed : Nat := 0
deriving DecidableEq

def refuse
    (state : FramingState)
    (status : HttpStatus) : Framed :=
  { state, status }

------------------------------------------------------------
-- Text
------------------------------------------------------------

def asciiLower
    (byte : UInt8) : UInt8 :=
  if 65 ≤ byte ∧ byte ≤ 90 then byte - 65 + 97 else byte

/- Equal up to the case of ASCII letters. -/
def iequals
    (left right : ByteVec) : Bool :=
  decide (left.map asciiLower = right.map asciiLower)

/- Spaces and tabs are trimmed, and nothing else. -/
def isOws
    (byte : UInt8) : Bool :=
  decide (byte = 32 ∨ byte = 9)

/- Without the white space at both ends. -/
def trimOws
    (text : ByteVec) : ByteVec :=
  ((text.dropWhile isOws).reverse.dropWhile isOws).reverse

/- A byte over 0x7F is negative, as characters are signed. -/
def isTokenByte
    (byte : UInt8) : Bool :=
  decide
    (32 < byte ∧ byte < 128 ∧ byte ≠ 127 ∧ byte ≠ 58)

def isTokenName
    (name : ByteVec) : Bool :=
  !name.isEmpty && name.all isTokenByte

def isDigit
    (byte : UInt8) : Bool :=
  decide (48 ≤ byte ∧ byte ≤ 57)

/- Digits only, and the value stays below the limit. -/
def parseDigits
    (limit : Nat) : Nat → ByteVec → Option Nat
  | value, [] => some value
  | value, byte :: bytes =>
      if !isDigit byte then
        none
      else
        let digit := (byte - 48).toNat
        if value > (limit - digit) / 10 then
          none
        else
          parseDigits limit (value * 10 + digit) bytes

/- At most twenty digits. -/
def parseLength
    (text : ByteVec)
    (limit : Nat) : Option Nat :=
  if text.isEmpty || decide (text.length > 20) then
    none
  else
    parseDigits limit 0 text

/- What is before a byte and what is after it. -/
def splitAtByte
    (byte : UInt8)
    (text : ByteVec) : Option (ByteVec × ByteVec) :=
  if byte ∈ text then
    some
      (text.takeWhile (· ≠ byte),
        (text.dropWhile (· ≠ byte)).drop 1)
  else
    none

/- Lines end with CR LF; either of them alone ends none. -/
def splitLines : ByteVec → List ByteVec
  | [] => [[]]
  | [byte] => [[byte]]
  | byte :: next :: rest =>
      if byte = 13 ∧ next = 10 then
        [] :: splitLines rest
      else
        match splitLines (next :: rest) with
        | [] => [[byte]]
        | line :: lines => (byte :: line) :: lines

------------------------------------------------------------
-- Framing
------------------------------------------------------------

namespace HttpRequest

/- The first header of a name. -/
def header
    (request : HttpRequest)
    (name : ByteVec) : Option ByteVec :=
  (request.headers.find? (iequals ·.1 name)).map (·.2)

/- How often the request has the header. -/
def countHeader
    (request : HttpRequest)
    (name : ByteVec) : Nat :=
  request.headers.countP (iequals ·.1 name)

end HttpRequest

/- METHOD SP TARGET SP VERSION, and nothing optional. -/
def parseRequestLine
    (line : ByteVec) : Option (ByteVec × ByteVec) := do
  let (method, rest) ← splitAtByte 32 line
  let (target, version) ← splitAtByte 32 rest
  if version ≠ asciiBytes "HTTP/1.1" ∧
      version ≠ asciiBytes "HTTP/1.0" then
    none
  else if target.head? ≠ some 47 then
    none
  else
    some (method, target)

def parseHeaderLine
    (line : ByteVec) : Option (ByteVec × ByteVec) :=
  match line with
  | [] => none
  | byte :: _ =>
      if isOws byte then
        none
      else
        match splitAtByte 58 line with
        | none => none
        | some (name, value) =>
            if !isTokenName name then
              none
            else
              some (name, trimOws value)

/- A line with nothing on it is passed over. -/
def parseHeaderLines :
    List ByteVec → Option (List (ByteVec × ByteVec))
  | [] => some []
  | line :: lines =>
      if line.isEmpty then
        parseHeaderLines lines
      else
        match parseHeaderLine line with
        | none => none
        | some header =>
            (parseHeaderLines lines).map (header :: ·)

/- The request line, then the header lines. -/
def parseHead
    (head : ByteVec) : Option HttpRequest :=
  match splitLines head with
  | [] => none
  | line :: lines =>
      match parseRequestLine line with
      | none => none
      | some (method, target) =>
          (parseHeaderLines lines).map fun headers =>
            { method, target, headers }

/- The request of a header section, and its body's length. -/
def readHead
    (head : ByteVec) : Except Framed (HttpRequest × Nat) :=
  match parseHead head with
  | none => .error (refuse .malformed .badRequest)
  | some request =>
      if request.countHeader
          (asciiBytes "Transfer-Encoding") ≠ 0 then
        .error (refuse .malformed .badRequest)
      else if request.countHeader
          (asciiBytes "Content-Length") ≠ 1 then
        .error (refuse .malformed .badRequest)
      else
        let text :=
          (request.header
            (asciiBytes "Content-Length")).getD []
        match parseLength text maxRequestBytes with
        | some length => .ok (request, length)
        | none =>
            if !text.isEmpty && text.all isDigit then
              .error (refuse .tooLarge .payloadTooLarge)
            else
              .error (refuse .malformed .badRequest)

/- A body that has not all arrived is waited for. -/
def readBody
    (buffer : ByteVec)
    (bodyBegin : Nat)
    (request : HttpRequest)
    (length : Nat) : Framed :=
  if buffer.length < bodyBegin + length then
    refuse .needMore .ok
  else
    { state := .complete
      request :=
        { request with
          body := (buffer.drop bodyBegin).take length }
      consumed := bodyBegin + length }

/- Nothing is framed before the blank line arrives. -/
def frameRequest
    (buffer : ByteVec) : Framed :=
  match find headerTerminator buffer with
  | none =>
      if buffer.length > maxHeaderBytes then
        refuse .tooLarge .payloadTooLarge
      else
        refuse .needMore .ok
  | some headerEnd =>
      if headerEnd > maxHeaderBytes then
        refuse .tooLarge .payloadTooLarge
      else
        match readHead (buffer.take headerEnd) with
        | .error framed => framed
        | .ok (request, length) =>
            readBody buffer
              (headerEnd + headerTerminator.length) request
              length

def Framed.waits
    (framed : Framed) : Bool :=
  decide (framed.state = .needMore)

/- What the listener makes of the reads of a connection. -/
def listenTo
    (chunks : List ByteVec) : Framed :=
  listen Framed.waits frameRequest [] chunks

------------------------------------------------------------
-- Screening
------------------------------------------------------------

structure AuthPolicy where
  expectedAuthorization : ByteVec
  port : UInt16
deriving DecidableEq

/- Every pair of bytes is compared. -/
def constantTimeEquals
    (left right : ByteVec) : Bool :=
  let diff : UInt8 :=
    if left.length = right.length then 0 else 1
  (left.zip right).foldl
      (fun diff pair => diff ||| (pair.1 ^^^ pair.2))
      diff =
    0

def rfind
    (byte : UInt8)
    (text : ByteVec) : Option Nat :=
  if byte ∈ text then
    some (text.length - 1 - text.reverse.idxOf byte)
  else
    none

/- A colon inside brackets separates no port. -/
def hasPort
    (host : ByteVec)
    (colon : Nat) : Bool :=
  match rfind 93 host with
  | none => decide (host.idxOf 58 = colon)
  | some bracket => decide (bracket < colon)

def isLoopbackName
    (name : ByteVec) : Bool :=
  decide
    (name = asciiBytes "127.0.0.1" ∨
      name = asciiBytes "localhost" ∨
      name = asciiBytes "[::1]")

/- A loopback name, with this port or with none. -/
def isLoopbackHost
    (host : ByteVec)
    (port : UInt16) : Bool :=
  match rfind 58 host with
  | none => isLoopbackName host
  | some colon =>
      if hasPort host colon then
        match parseLength (host.drop (colon + 1)) 65535 with
        | none => false
        | some given =>
            decide (UInt16.ofNat given = port) &&
              isLoopbackName (host.take colon)
      else
        isLoopbackName host

/- How many there are of a content type is not asked. -/
def screen
    (request : HttpRequest)
    (policy : AuthPolicy) : Option HttpStatus :=
  if request.countHeader (asciiBytes "Authorization") ≠ 1
  then
    some .unauthorized
  else if !constantTimeEquals
      ((request.header
        (asciiBytes "Authorization")).getD [])
      policy.expectedAuthorization then
    some .unauthorized
  else if request.countHeader (asciiBytes "Host") ≠ 1 then
    some .forbidden
  else if !isLoopbackHost
      ((request.header (asciiBytes "Host")).getD [])
      policy.port then
    some .forbidden
  else if request.method ≠ asciiBytes "POST" then
    some .methodNotAllowed
  else if request.target ≠ asciiBytes "/" then
    some .notFound
  else
    match request.header (asciiBytes "Content-Type") with
    | none => some .unsupportedMediaType
    | some contentType =>
        if !iequals
            (trimOws (contentType.takeWhile (· ≠ 59)))
            (asciiBytes "application/json") then
          some .unsupportedMediaType
        else
          none

------------------------------------------------------------
-- Replies
------------------------------------------------------------

namespace HttpStatus

def code : HttpStatus → Nat
  | ok => 200
  | badRequest => 400
  | unauthorized => 401
  | forbidden => 403
  | notFound => 404
  | methodNotAllowed => 405
  | payloadTooLarge => 413
  | unsupportedMediaType => 415

def reasonPhrase : HttpStatus → String
  | ok => "OK"
  | badRequest => "Bad Request"
  | unauthorized => "Unauthorized"
  | forbidden => "Forbidden"
  | notFound => "Not Found"
  | methodNotAllowed => "Method Not Allowed"
  | payloadTooLarge => "Payload Too Large"
  | unsupportedMediaType => "Unsupported Media Type"

end HttpStatus

def defaultContentType : ByteVec :=
  asciiBytes "application/json"

/- The response as it is written to the socket. -/
def renderResponse
    (status : HttpStatus)
    (body : ByteVec)
    (contentType : ByteVec := defaultContentType) :
    ByteVec :=
  asciiBytes "HTTP/1.1 " ++ Decimal.digits status.code ++
    asciiBytes " " ++ asciiBytes status.reasonPhrase ++
    asciiBytes "\r\nContent-Type: " ++ contentType ++
    asciiBytes "\r\nContent-Length: " ++
    Decimal.digits body.length ++
    asciiBytes "\r\nConnection: close" ++
    asciiBytes "\r\nX-Content-Type-Options: nosniff" ++
    (if status = .unauthorized then
      asciiBytes
        "\r\nWWW-Authenticate: Basic realm=\"amarian\""
    else
      []) ++
    headerTerminator ++ body

------------------------------------------------------------
-- What Is Framed
------------------------------------------------------------

section Framing

variable {buffer : ByteVec} {headerEnd : Nat}

/- Where the header section is no longer than it may be. -/
theorem frameRequest_found
    (hFind :
      find headerTerminator buffer = some headerEnd)
    (hSmall : headerEnd ≤ maxHeaderBytes) :
    frameRequest buffer =
      match readHead (buffer.take headerEnd) with
      | .error framed => framed
      | .ok (request, length) =>
          readBody buffer (headerEnd + 4) request length := by
  rw [frameRequest, hFind]
  exact if_neg (Nat.not_lt.mpr hSmall)

theorem frameRequest_longer
    (hFind :
      ∀ headerEnd,
        find headerTerminator buffer = some headerEnd →
          maxHeaderBytes < headerEnd)
    (hLong : maxHeaderBytes < buffer.length) :
    frameRequest buffer =
      refuse .tooLarge .payloadTooLarge := by
  rw [frameRequest]
  cases hEnd : find headerTerminator buffer with
  | none => exact if_pos hLong
  | some headerEnd => exact if_pos (hFind headerEnd hEnd)

end Framing

------------------------------------------------------------
-- Lines
------------------------------------------------------------

/- A line end that is not followed by another is passed. -/
theorem find_line
    {line next : ByteVec}
    (hLine : 13 ∉ line)
    (hNext : next.head? ≠ some 13) :
    find headerTerminator (line ++ 13 :: 10 :: next) =
      (find headerTerminator next).map
        (line.length + 2 + ·) := by
  have hHere : ¬headerTerminator <+: 13 :: 10 :: next := by
    intro hPrefix
    have hAfter :=
      (List.cons_prefix_cons.mp
        (List.cons_prefix_cons.mp hPrefix).2).2
    rcases hAfter with ⟨rest, rfl⟩
    exact hNext rfl
  have hThere : ¬headerTerminator <+: 10 :: next := by
    intro hPrefix
    exact absurd (List.cons_prefix_cons.mp hPrefix).1
      (by decide)
  rw [headerTerminator, find_skip hLine, ← headerTerminator,
    find, if_neg hHere, find, if_neg hThere, Option.map_map,
    Option.map_map]
  refine congrArg (Option.map · _) (funext fun place => ?_)
  simp only [Function.comp_apply]
  omega

theorem splitLines_cons
    {byte : UInt8}
    (hByte : byte ≠ 13)
    (rest : ByteVec) :
    splitLines (byte :: rest) =
      match splitLines rest with
      | [] => [[byte]]
      | line :: lines => (byte :: line) :: lines := by
  cases rest with
  | nil => rfl
  | cons next rest =>
      rw [splitLines]
      exact if_neg fun hEnd => hByte hEnd.1

theorem splitLines_line
    {line : ByteVec}
    (hLine : 13 ∉ line)
    (next : ByteVec) :
    splitLines (line ++ 13 :: 10 :: next) =
      line :: splitLines next := by
  induction line with
  | nil => exact if_pos ⟨rfl, rfl⟩
  | cons byte line ih =>
      rw [List.mem_cons, not_or] at hLine
      rw [List.cons_append,
        splitLines_cons (Ne.symm hLine.1), ih hLine.2]

theorem splitLines_free
    {line : ByteVec}
    (hLine : 13 ∉ line) :
    splitLines line = [line] := by
  induction line with
  | nil => rfl
  | cons byte line ih =>
      rw [List.mem_cons, not_or] at hLine
      rw [splitLines_cons (Ne.symm hLine.1), ih hLine.2]

/- Lines with line ends between them. -/
def joinLines : List ByteVec → ByteVec
  | [] => []
  | [line] => line
  | line :: next :: lines =>
      line ++ 13 :: 10 :: joinLines (next :: lines)

theorem splitLines_joinLines
    {first : ByteVec}
    {lines : List ByteVec}
    (hLines : ∀ line ∈ first :: lines, 13 ∉ line) :
    splitLines (joinLines (first :: lines)) =
      first :: lines := by
  induction lines generalizing first with
  | nil =>
      exact splitLines_free (hLines first List.mem_cons_self)
  | cons next lines ih =>
      rw [List.forall_mem_cons] at hLines
      rw [joinLines, splitLines_line hLines.1, ih hLines.2]

theorem head_joinLines
    {first : ByteVec}
    (hSome : first ≠ [])
    (lines : List ByteVec)
    (rest : ByteVec) :
    (joinLines (first :: lines) ++ rest).head? =
      first.head? := by
  rcases List.exists_cons_of_ne_nil hSome with
    ⟨byte, bytes, rfl⟩
  cases lines with
  | nil => rfl
  | cons next lines => rfl

/- The section ends after its last line, and not before. -/
theorem find_joinLines
    {first : ByteVec}
    {lines : List ByteVec}
    (hLines :
      ∀ line ∈ first :: lines, line ≠ [] ∧ 13 ∉ line)
    (rest : ByteVec) :
    find headerTerminator
        (joinLines (first :: lines) ++
          (headerTerminator ++ rest)) =
      some (joinLines (first :: lines)).length := by
  induction lines generalizing first with
  | nil =>
      have hFirst := (hLines first List.mem_cons_self).2
      have hHere :
          find headerTerminator (headerTerminator ++ rest) =
            some 0 :=
        if_pos (List.prefix_append headerTerminator rest)
      rw [headerTerminator] at hHere
      rw [joinLines, headerTerminator, find_skip hFirst, hHere]
      rfl
  | cons next lines ih =>
      rw [List.forall_mem_cons] at hLines
      have hNext := hLines.2 next List.mem_cons_self
      have hStart :
          (joinLines (next :: lines) ++
            (headerTerminator ++ rest)).head? ≠ some 13 := by
        rw [head_joinLines hNext.1]
        intro hReturn
        exact hNext.2 (List.mem_of_head? hReturn)
      rw [joinLines, List.append_assoc, List.cons_append,
        List.cons_append, find_line hLines.1.2 hStart,
        ih hLines.2, Option.map_some, List.length_append,
        List.length_cons, List.length_cons]
      exact congrArg some (by omega)

end Rpc

end Amarian
