import Amarian.Rpc.Http

/-
  The client's half of the RPC interface: the call it sends
  and how it takes the reply apart.

  `AsciiLower`, `IEquals`, `TrimOws` and `ParseLength` are
  written a second time in the client, in the same words, so
  the ones of the server stand for both.

  Key definitions include:
    * `Rpc.renderCall`
    * `Rpc.parseResponse`
    * `Rpc.finishResponse`
-/

------------------------------------------------------------
-- Calls
------------------------------------------------------------

namespace Amarian

namespace Rpc

open Incremental

def maxResponseBytes : Nat := 16 * 2 ^ 20

/- The host is the one the caller names, not an address. -/
def renderCall
    (authorization host : ByteVec)
    (port : UInt16)
    (body : ByteVec) : ByteVec :=
  asciiBytes "POST / HTTP/1.1\r\n" ++ asciiBytes "Host: " ++
    host ++ asciiBytes ":" ++ Decimal.digits port.toNat ++
    asciiBytes "\r\n" ++ asciiBytes "Authorization: " ++
    authorization ++ asciiBytes "\r\n" ++
    asciiBytes "Content-Type: application/json\r\n" ++
    asciiBytes "Connection: close\r\n" ++
    asciiBytes "Content-Length: " ++
    Decimal.digits body.length ++ headerTerminator ++ body

------------------------------------------------------------
-- Replies
------------------------------------------------------------

/- What the client knows of the response so far. -/
inductive ResponseState where
  | complete
  | needMore
  | malformed
deriving DecidableEq

/- The response, or why it cannot be read. -/
structure ParsedResponse where
  state : ResponseState := .needMore
  status : Nat := 0
  body : ByteVec := []
  failure : String := ""
deriving DecidableEq

def fail
    (failure : String) : ParsedResponse :=
  { state := .malformed, failure }

/- HTTP-VERSION SP STATUS SP REASON; a reason is optional. -/
def parseStatusLine
    (line : ByteVec) : Except String Nat :=
  match splitAtByte 32 line with
  | none =>
      .error "the reply does not begin with an HTTP status line"
  | some (_, rest) =>
      if ¬asciiBytes "HTTP/1." <+: line then
        .error
          "the reply does not begin with an HTTP status line"
      else
        match parseLength (rest.takeWhile (· ≠ 32)) 999 with
        | none =>
            .error "the reply's status is not a status code"
        | some code =>
            if code < 100 then
              .error "the reply's status is not a status code"
            else
              .ok code

/- What a line says the length is, if that is its subject. -/
def announcedLength
    (line : ByteVec) : Option (Option Nat) :=
  match splitAtByte 58 line with
  | none => none
  | some (name, value) =>
      if iequals name (asciiBytes "Content-Length") then
        some (parseLength (trimOws value) maxResponseBytes)
      else
        none

/- A second length is refused and not resolved. -/
def readLength
    (lines : List ByteVec) : Except String (Option Nat) :=
  match lines.filterMap announcedLength with
  | [] => .ok none
  | [some length] => .ok (some length)
  | [none] =>
      .error
        "the reply's length is not a number this client can read"
  | _ => .error "the reply announced its length twice"

/- The status, and the length of the body if it is given. -/
def readReplyHead
    (head : ByteVec) : Except String (Nat × Option Nat) :=
  match splitLines head with
  | [] => .error "the reply does not begin with an HTTP status line"
  | line :: lines => do
      let code ← parseStatusLine line
      let length ← readLength lines
      pure (code, length)

/- Without a length the body ends with the connection. -/
def readReplyBody
    (buffer : ByteVec)
    (atEof : Bool)
    (bodyBegin : Nat)
    (status : Nat)
    (length : Option Nat) : ParsedResponse :=
  match length with
  | some length =>
      if buffer.length - bodyBegin < length then
        if atEof then
          fail
            "the node closed the connection before sending the whole reply"
        else
          {}
      else
        { state := .complete
          status
          body := (buffer.drop bodyBegin).take length }
  | none =>
      if !atEof then
        if buffer.length > maxResponseBytes then
          fail "the reply is larger than this client will read"
        else
          {}
      else
        { state := .complete
          status
          body := buffer.drop bodyBegin }

/-
  Whether the connection has closed is the one thing that
  the bytes do not tell.
-/
def split
    (buffer : ByteVec)
    (atEof : Bool) : ParsedResponse :=
  match find headerTerminator buffer with
  | none =>
      if buffer.length > maxResponseBytes then
        fail
          "the reply's headers are larger than this client will read"
      else if atEof then
        fail
          (if buffer.isEmpty then
            "the node closed the connection without replying"
          else
            "the node closed the connection mid-reply")
      else
        {}
  | some headerEnd =>
      match readReplyHead (buffer.take headerEnd) with
      | .error failure => fail failure
      | .ok (status, length) =>
          readReplyBody buffer atEof
            (headerEnd + headerTerminator.length) status
            length

/- More bytes may follow. -/
def parseResponse
    (buffer : ByteVec) : ParsedResponse :=
  split buffer false

/- The connection is closed, so no byte follows. -/
def finishResponse
    (buffer : ByteVec) : ParsedResponse :=
  split buffer true

end Rpc

end Amarian
