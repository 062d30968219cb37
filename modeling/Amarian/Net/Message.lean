import Amarian.Consensus.Params
import Amarian.Crypto.Sha256
import Amarian.Lib.Framing
import Amarian.Util.Reader

/-
  Peer-to-peer messages on the wire.

  A message is a header of fourteen bytes and a payload.
  `frameMessage` judges a buffer that may hold one; the
  connection reads the header and then the body, and asks
  `frameMessage` about the two once there is a body.

  Key definitions include:
    * `Command`
    * `frameMessage`
    * `onHeader`
    * `onBody`
    * `Misread`

  Key theorems include:
    * `frameStep_eq_readStep_iff`
    * `connection_reads_frames_iff`
-/

------------------------------------------------------------
-- Commands
------------------------------------------------------------

namespace Amarian

namespace Net

open Codec

/- Magic, command, length and checksum. -/
def headerSize : Nat := 14

def maxMessageSize : Nat := 4 <<< 20

/-
  The numeric identifiers in use.  Any other number can be
  cast to the type as well.
-/
inductive Command where
  | hello
  | helloAck
  | getHeaders
  | headers
  | inv
  | getData
  | tx
  | block
  | getAddr
  | addr
  | ping
  | pong
  | other (raw : UInt16)
deriving DecidableEq

def commandCount : Nat := 12

/- The raw value is below the number of commands. -/
def isKnownCommand
    (raw : UInt16) : Bool :=
  decide (raw.toNat < commandCount)

def Command.ofRaw
    (raw : UInt16) : Command :=
  match raw.toNat with
  | 0 => hello
  | 1 => helloAck
  | 2 => getHeaders
  | 3 => headers
  | 4 => inv
  | 5 => getData
  | 6 => tx
  | 7 => block
  | 8 => getAddr
  | 9 => addr
  | 10 => ping
  | 11 => pong
  | _ => other raw

def Command.raw : Command → UInt16
  | hello => 0
  | helloAck => 1
  | getHeaders => 2
  | headers => 3
  | inv => 4
  | getData => 5
  | tx => 6
  | block => 7
  | getAddr => 8
  | addr => 9
  | ping => 10
  | pong => 11
  | other raw => raw

/- A message after its frame is removed. -/
structure Message where
  command : Command
  payload : ByteVec
deriving DecidableEq

------------------------------------------------------------
-- Framing
------------------------------------------------------------

/- The first four bytes of a double hash, as they are stored. -/
def payloadChecksum
    (c : Crypto)
    (payload : ByteVec) : UInt32 :=
  UInt32.ofNat
    (fromLittleEndian ((c.doubleSha256 payload).bytes.take 4))

/- An empty payload has the checksum zero. -/
def validateChecksum
    (c : Crypto)
    (payload : ByteVec)
    (checksum : UInt32) : Bool :=
  if payload.length = 0 then
    checksum == 0
  else
    payloadChecksum c payload == checksum

/- The fields behind the magic. -/
structure WireHeader where
  command : UInt16
  length : UInt32
  checksum : UInt32
deriving DecidableEq

/- What the framer answers. -/
inductive Framed where
  | complete (message : Message) (consumed : Nat)
  | needMore
  | malformed (failure : String)

/- One read of the framer, and why it stops if there is none. -/
def readOr
    {α : Type}
    (failure : String)
    (read : Decoder UInt8 α)
    (reader : ByteReader) : Except String (α × ByteReader) :=
  match read reader with
  | (none, _) => .error failure
  | (some value, after) => .ok (value, after)

def frameHeader
    (header expectedMagic : ByteVec) :
    Except String WireHeader := do
  let (magic, afterMagic) ←
    readOr "cannot read magic" (Decoder.consume 4)
      (.ofList header)
  if magic ≠ expectedMagic then
    .error "magic mismatch"
  else do
    let (command, afterCommand) ←
      readOr "cannot read command" readU16 afterMagic
    if !isKnownCommand command then
      .error ("unknown command " ++ toString command)
    else do
      let (length, afterLength) ←
        readOr "cannot read length" readU32 afterCommand
      if length.toNat > maxMessageSize then
        .error ("message exceeds maximum size: " ++
          toString length)
      else do
        let (checksum, _) ←
          readOr "cannot read checksum" readU32 afterLength
        .ok { command, length, checksum }

/- One message from a buffer that may hold less than one. -/
def frameMessage
    (c : Crypto)
    (buffer expectedMagic : ByteVec) : Framed :=
  if buffer.length < headerSize then
    .needMore
  else
    match frameHeader (buffer.take headerSize)
        expectedMagic with
    | .error failure => .malformed failure
    | .ok header =>
        let totalSize := headerSize + header.length.toNat
        if buffer.length < totalSize then
          .needMore
        else
          let payload :=
            (buffer.drop headerSize).take header.length.toNat
          if !validateChecksum c payload header.checksum then
            .malformed "checksum mismatch"
          else
            .complete
              { command := .ofRaw header.command, payload }
              totalSize

/- The frame, then the payload. -/
def serialiseMessage
    (c : Crypto)
    (command : Command)
    (payload magic : ByteVec) : ByteVec :=
  magic ++
    writeU16 command.raw ++
    writeU32 (UInt32.ofNat payload.length) ++
    writeU32
      (if payload.length > 0 then payloadChecksum c payload
        else 0) ++
    payload

------------------------------------------------------------
-- The Connection's Reader
------------------------------------------------------------

/- What a read leads to. -/
inductive ReadVerdict where
  | close (reason : String)
  | handle (message : Message)
  | readBody (length : Nat)

/-
  The connection parses the header by itself.  A message
  without a body is handed on at once.
-/
def onHeader
    (header expectedMagic : ByteVec) : ReadVerdict :=
  match Decoder.consume 4 (.ofList header) with
  | (none, _) => .close "bad magic"
  | (some magic, afterMagic) =>
      if magic ≠ expectedMagic then
        .close "bad magic"
      else
        let command := Decoder.into readU16 0 afterMagic
        let length := Decoder.into readU32 0 command.2
        if length.1.2.toNat > maxMessageSize then
          .close "oversized message"
        else if length.1.2.toNat = 0 then
          .handle
            { command := .ofRaw command.1.2, payload := [] }
        else
          .readBody length.1.2.toNat

def onBody
    (c : Crypto)
    (header body expectedMagic : ByteVec) : ReadVerdict :=
  match frameMessage c (header ++ body) expectedMagic with
  | .complete message _ => .handle message
  | .needMore => .close "framing error: "
  | .malformed failure =>
      .close ("framing error: " ++ failure)

/- A stream is closed on, or it runs out. -/
inductive Ending where
  | closed
  | exhausted
deriving DecidableEq

/- Taking messages off a stream with `frameMessage` alone. -/
def frameStep
    (c : Crypto)
    (expectedMagic stream : ByteVec) :
    Framing.Step UInt8 Message Ending :=
  match frameMessage c stream expectedMagic with
  | .complete message consumed =>
      .item message (stream.drop consumed)
  | .needMore => .stop .exhausted
  | .malformed _ => .stop .closed

/- One turn of the connection: a header and its body. -/
def readStep
    (c : Crypto)
    (expectedMagic stream : ByteVec) :
    Framing.Step UInt8 Message Ending :=
  if stream.length < headerSize then
    .stop .exhausted
  else
    let header := stream.take headerSize
    let rest := stream.drop headerSize
    match onHeader header expectedMagic with
    | .close _ => .stop .closed
    | .handle message => .item message rest
    | .readBody length =>
        if rest.length < length then
          .stop .exhausted
        else
          match onBody c header (rest.take length)
              expectedMagic with
          | .handle message =>
              .item message (rest.drop length)
          | _ => .stop .closed

/- The messages of a byte stream, as the framer reads it. -/
def framedMessages
    (c : Crypto)
    (expectedMagic stream : ByteVec) :
    List Message × Option Ending :=
  Framing.transcript (frameStep c expectedMagic) stream

/- The messages of a byte stream, as the connection reads it. -/
def readMessages
    (c : Crypto)
    (expectedMagic stream : ByteVec) :
    List Message × Option Ending :=
  Framing.transcript (readStep c expectedMagic) stream

------------------------------------------------------------
-- Headers Read Field By Field
------------------------------------------------------------

theorem readLittleEndian_ofList
    {width : Nat}
    {bytes : ByteVec}
    (hLong : width ≤ bytes.length) :
    readLittleEndian width (.ofList bytes) =
      (some (fromLittleEndian (bytes.take width)),
        .ofList (bytes.drop width)) := by
  have hTaken := (Canonical.consume width).complete
    (bytes.take width) (bytes.drop width)
    (by rw [List.length_take, Nat.min_eq_left hLong])
  rw [List.take_append_drop] at hTaken
  rw [readLittleEndian, Decoder.bind_of_some hTaken]
  rfl

theorem readU16_ofList
    {bytes : ByteVec}
    (hLong : 2 ≤ bytes.length) :
    readU16 (.ofList bytes) =
      (some (UInt16.ofNat (fromLittleEndian (bytes.take 2))),
        .ofList (bytes.drop 2)) := by
  rw [readU16,
    Decoder.bind_of_some (readLittleEndian_ofList hLong)]
  rfl

theorem readU32_ofList
    {bytes : ByteVec}
    (hLong : 4 ≤ bytes.length) :
    readU32 (.ofList bytes) =
      (some (UInt32.ofNat (fromLittleEndian (bytes.take 4))),
        .ofList (bytes.drop 4)) := by
  rw [readU32,
    Decoder.bind_of_some (readLittleEndian_ofList hLong)]
  rfl

/- The fields at their places in a stream. -/
def wireHeader
    (stream : ByteVec) : WireHeader :=
  { command :=
      UInt16.ofNat
        (fromLittleEndian ((stream.drop 4).take 2))
    length :=
      UInt32.ofNat
        (fromLittleEndian ((stream.drop 6).take 4))
    checksum :=
      UInt32.ofNat
        (fromLittleEndian ((stream.drop 10).take 4)) }

section Headers

variable {header expectedMagic : ByteVec}

theorem consume_magic
    (hSize : header.length = headerSize) :
    Decoder.consume 4 (.ofList header) =
      (some (header.take 4), .ofList (header.drop 4)) := by
  have hTaken := (Canonical.consume 4).complete
    (header.take 4) (header.drop 4)
    (by
      rw [List.length_take, hSize]
      rfl)
  rw [List.take_append_drop] at hTaken
  exact hTaken

theorem readOr_of_some
    {α : Type}
    {failure : String}
    {read : Decoder UInt8 α}
    {reader after : ByteReader}
    {value : α}
    (hRead : read reader = (some value, after)) :
    readOr failure read reader = .ok (value, after) := by
  rw [readOr, hRead]

/- The three checks a header has to pass. -/
theorem frameHeader_eq
    (hSize : header.length = headerSize) :
    frameHeader header expectedMagic =
      if header.take 4 ≠ expectedMagic then
        .error "magic mismatch"
      else if !isKnownCommand (wireHeader header).command then
        .error ("unknown command " ++
          toString (wireHeader header).command)
      else if (wireHeader header).length.toNat >
          maxMessageSize then
        .error ("message exceeds maximum size: " ++
          toString (wireHeader header).length)
      else
        .ok (wireHeader header) := by
  have hCommand :
      readU16 (.ofList (header.drop 4)) =
        (some (wireHeader header).command,
          .ofList (header.drop 6)) := by
    rw [readU16_ofList
      (by rw [List.length_drop, hSize]; decide),
      List.drop_drop]
    rfl
  have hLength :
      readU32 (.ofList (header.drop 6)) =
        (some (wireHeader header).length,
          .ofList (header.drop 10)) := by
    rw [readU32_ofList
      (by rw [List.length_drop, hSize]; decide),
      List.drop_drop]
    rfl
  have hChecksum :
      readU32 (.ofList (header.drop 10)) =
        (some (wireHeader header).checksum,
          .ofList (header.drop 14)) := by
    rw [readU32_ofList
      (by rw [List.length_drop, hSize]; decide),
      List.drop_drop]
    rfl
  rw [frameHeader, readOr_of_some (consume_magic hSize)]
  change (if _ then _ else _) = _
  split
  · rfl
  rw [readOr_of_some hCommand]
  change (if _ then _ else _) = _
  split
  · rfl
  rw [readOr_of_some hLength]
  change (if _ then _ else _) = _
  split
  · rfl
  rw [readOr_of_some hChecksum]
  rfl

theorem onHeader_eq
    (hSize : header.length = headerSize) :
    onHeader header expectedMagic =
      if header.take 4 ≠ expectedMagic then
        .close "bad magic"
      else if (wireHeader header).length.toNat >
          maxMessageSize then
        .close "oversized message"
      else if (wireHeader header).length.toNat = 0 then
        .handle
          { command := .ofRaw (wireHeader header).command
            payload := [] }
      else
        .readBody (wireHeader header).length.toNat := by
  have hCommand :
      Decoder.into readU16 0 (.ofList (header.drop 4)) =
        ((true, (wireHeader header).command),
          .ofList (header.drop 6)) := by
    rw [Decoder.into, readU16_ofList
      (by rw [List.length_drop, hSize]; decide),
      List.drop_drop]
    rfl
  have hLength :
      Decoder.into readU32 0 (.ofList (header.drop 6)) =
        ((true, (wireHeader header).length),
          .ofList (header.drop 10)) := by
    rw [Decoder.into, readU32_ofList
      (by rw [List.length_drop, hSize]; decide),
      List.drop_drop]
    rfl
  rw [onHeader, consume_magic hSize]
  simp only [hCommand, hLength]

end Headers

------------------------------------------------------------
-- One Turn Of Either Reader
------------------------------------------------------------

section Steps

variable {c : Crypto} {expectedMagic stream : ByteVec}

/- The header at the front of a stream that has one. -/
def frontHeader
    (stream : ByteVec) : WireHeader :=
  wireHeader (stream.take headerSize)

def frontPayload
    (stream : ByteVec) : ByteVec :=
  (stream.drop headerSize).take
    (frontHeader stream).length.toNat

/- The front of the stream is for this network. -/
def FrontMagic
    (expectedMagic stream : ByteVec) : Prop :=
  (stream.take headerSize).take 4 = expectedMagic

instance
    (expectedMagic stream : ByteVec) :
    Decidable (FrontMagic expectedMagic stream) := by
  unfold FrontMagic
  infer_instance

/- All of the payload that the header announces is there. -/
def FrontComplete
    (stream : ByteVec) : Prop :=
  headerSize + (frontHeader stream).length.toNat ≤
    stream.length

instance
    (stream : ByteVec) :
    Decidable (FrontComplete stream) := by
  unfold FrontComplete
  infer_instance

def frontMessage
    (stream : ByteVec) : Message :=
  { command := .ofRaw (frontHeader stream).command
    payload := frontPayload stream }

/- What follows the first frame. -/
def frontRest
    (stream : ByteVec) : ByteVec :=
  stream.drop
    (headerSize + (frontHeader stream).length.toNat)

theorem length_take_headerSize
    (hLong : headerSize ≤ stream.length) :
    (stream.take headerSize).length = headerSize := by
  rw [List.length_take, Nat.min_eq_left hLong]

/- The framer's checks, in its order. -/
theorem frameMessage_eq
    (c : Crypto)
    (hLong : headerSize ≤ stream.length) :
    frameMessage c stream expectedMagic =
      if ¬FrontMagic expectedMagic stream then
        .malformed "magic mismatch"
      else if !isKnownCommand
          (frontHeader stream).command then
        .malformed ("unknown command " ++
          toString (frontHeader stream).command)
      else if (frontHeader stream).length.toNat >
          maxMessageSize then
        .malformed ("message exceeds maximum size: " ++
          toString (frontHeader stream).length)
      else if ¬FrontComplete stream then
        .needMore
      else if !validateChecksum c (frontPayload stream)
          (frontHeader stream).checksum then
        .malformed "checksum mismatch"
      else
        .complete (frontMessage stream)
          (headerSize +
            (frontHeader stream).length.toNat) := by
  have hHeader := @frameHeader_eq _ expectedMagic
    (length_take_headerSize hLong)
  rw [frameMessage, if_neg (Nat.not_lt.mpr hLong), hHeader]
  change (match (if ¬FrontMagic expectedMagic stream then _
    else if (!isKnownCommand (frontHeader stream).command) =
      true then _
    else if (frontHeader stream).length.toNat >
      maxMessageSize then _
    else .ok (frontHeader stream) :
      Except String WireHeader) with
    | .error failure => Framed.malformed failure
    | .ok header => _) = _
  by_cases hMagic : FrontMagic expectedMagic stream
  case neg => rw [if_pos hMagic, if_pos hMagic]
  rw [if_neg (not_not.mpr hMagic),
    if_neg (not_not.mpr hMagic)]
  by_cases hUnknown :
      (!isKnownCommand (frontHeader stream).command) = true
  case pos =>
    rw [if_pos hUnknown, if_pos hUnknown]
    rfl
  rw [if_neg hUnknown, if_neg hUnknown]
  by_cases hSize :
      (frontHeader stream).length.toNat > maxMessageSize
  case pos =>
    rw [if_pos hSize, if_pos hSize]
    rfl
  rw [if_neg hSize, if_neg hSize]
  by_cases hBody : FrontComplete stream
  case neg =>
    rw [if_pos hBody]
    exact if_pos (Nat.not_le.mp hBody)
  rw [if_neg (not_not.mpr hBody)]
  exact if_neg (Nat.not_lt.mpr hBody)

theorem frameStep_eq
    (c : Crypto)
    (hLong : headerSize ≤ stream.length) :
    frameStep c expectedMagic stream =
      if ¬FrontMagic expectedMagic stream ∨
          isKnownCommand (frontHeader stream).command =
            false ∨
          (frontHeader stream).length.toNat >
            maxMessageSize then
        .stop .closed
      else if ¬FrontComplete stream then
        .stop .exhausted
      else if !validateChecksum c (frontPayload stream)
          (frontHeader stream).checksum then
        .stop .closed
      else
        .item (frontMessage stream) (frontRest stream) := by
  rw [frameStep, frameMessage_eq c hLong]
  by_cases hMagic : FrontMagic expectedMagic stream
  case neg => simp [hMagic]
  by_cases hKnown :
      isKnownCommand (frontHeader stream).command = true
  case neg => simp [hMagic, hKnown]
  by_cases hSize :
      (frontHeader stream).length.toNat > maxMessageSize
  case pos => simp [hMagic, hKnown, hSize]
  simp only [hMagic, hKnown, hSize, not_true_eq_false,
    Bool.not_true, Bool.false_eq_true, Bool.true_eq_false,
    or_self, if_false]
  split_ifs
  · rfl
  · rfl
  · rfl

/- What is behind the first message does not matter. -/
theorem take_front
    (hComplete : FrontComplete stream) :
    let buffer := stream.take
      (headerSize + (frontHeader stream).length.toNat)
    buffer.take headerSize = stream.take headerSize ∧
      frontHeader buffer = frontHeader stream ∧
      frontPayload buffer = frontPayload stream ∧
      headerSize ≤ buffer.length ∧
      FrontComplete buffer := by
  have hTake :
      (stream.take (headerSize +
          (frontHeader stream).length.toNat)).take
          headerSize =
        stream.take headerSize := by
    rw [List.take_take,
      Nat.min_eq_left (Nat.le_add_right ..)]
  have hFront :
      frontHeader (stream.take (headerSize +
          (frontHeader stream).length.toNat)) =
        frontHeader stream :=
    congrArg wireHeader hTake
  have hLength :
      (stream.take (headerSize +
          (frontHeader stream).length.toNat)).length =
        headerSize + (frontHeader stream).length.toNat := by
    rw [List.length_take, Nat.min_eq_left hComplete]
  refine ⟨hTake, hFront, ?_, ?_, ?_⟩
  · rw [frontPayload, hFront, List.drop_take,
      List.take_take, Nat.add_sub_cancel_left, Nat.min_self,
      frontPayload]
  · rw [hLength]
    exact Nat.le_add_right ..
  · rw [FrontComplete, hFront]
    exact Nat.le_of_eq hLength.symm

/-
  The connection's checks.  What the framer is asked about is
  a header and all of its body.
-/
theorem readStep_eq
    (c : Crypto)
    (hLong : headerSize ≤ stream.length) :
    readStep c expectedMagic stream =
      if ¬FrontMagic expectedMagic stream ∨
          (frontHeader stream).length.toNat >
            maxMessageSize then
        .stop .closed
      else if (frontHeader stream).length.toNat = 0 then
        .item (frontMessage stream) (frontRest stream)
      else if ¬FrontComplete stream then
        .stop .exhausted
      else if isKnownCommand (frontHeader stream).command =
            false ∨
          validateChecksum c (frontPayload stream)
              (frontHeader stream).checksum =
            false then
        .stop .closed
      else
        .item (frontMessage stream) (frontRest stream) := by
  have hHeader := @onHeader_eq _ expectedMagic
    (length_take_headerSize hLong)
  rw [readStep, if_neg (Nat.not_lt.mpr hLong)]
  simp only [hHeader]
  change (match (if ¬FrontMagic expectedMagic stream then _
    else if (frontHeader stream).length.toNat >
      maxMessageSize then _
    else if (frontHeader stream).length.toNat = 0 then _
    else ReadVerdict.readBody
      (frontHeader stream).length.toNat) with
    | .close _ => _
    | .handle message => _
    | .readBody length => _) = _
  by_cases hMagic : FrontMagic expectedMagic stream
  case neg => simp [hMagic]
  by_cases hSize :
      (frontHeader stream).length.toNat > maxMessageSize
  case pos => simp [hMagic, hSize]
  simp only [hMagic, hSize, not_true_eq_false, or_self,
    if_false]
  by_cases hEmpty :
      (frontHeader stream).length.toNat = 0
  · rw [if_pos hEmpty, if_pos hEmpty, frontMessage,
      frontPayload, frontRest, hEmpty]
    rfl
  rw [if_neg hEmpty, if_neg hEmpty]
  by_cases hBody : FrontComplete stream
  case neg =>
    rw [if_pos hBody]
    apply if_pos
    rw [List.length_drop]
    unfold FrontComplete at hBody
    omega
  rw [if_neg (not_not.mpr hBody)]
  have hEnough :
      ¬(stream.drop headerSize).length <
        (frontHeader stream).length.toNat := by
    rw [List.length_drop]
    unfold FrontComplete at hBody
    omega
  refine (if_neg hEnough).trans ?_
  have hBuffer :
      stream.take headerSize ++
          (stream.drop headerSize).take
            (frontHeader stream).length.toNat =
        stream.take (headerSize +
          (frontHeader stream).length.toNat) :=
    List.take_add.symm
  rcases take_front hBody with
    ⟨hTake, hFront, hPayload, hWhole, hAll⟩
  have hFramed := @frameMessage_eq expectedMagic _ c hWhole
  have hMagicToo :
      FrontMagic expectedMagic (stream.take (headerSize +
        (frontHeader stream).length.toNat)) := by
    rw [FrontMagic, hTake]
    exact hMagic
  rw [if_neg (not_not.mpr hMagicToo), hFront,
    if_neg hSize,
    if_neg (not_not.mpr hAll), hPayload, frontMessage,
    hFront, hPayload] at hFramed
  rw [onBody, hBuffer, hFramed]
  have hRest :
      (stream.drop headerSize).drop
          (frontHeader stream).length.toNat =
        frontRest stream :=
    List.drop_drop
  cases isKnownCommand (frontHeader stream).command with
  | false => rfl
  | true =>
      cases validateChecksum c (frontPayload stream)
          (frontHeader stream).checksum with
      | false => rfl
      | true =>
          rw [hRest]
          rfl

/-
  The frames the connection gets wrong: one without a body is
  neither checked for its command nor for its checksum, and
  one with an unknown command is waited for until its body is
  complete.
-/
structure Misread
    (expectedMagic stream : ByteVec) : Prop where
  long : headerSize ≤ stream.length
  magic : FrontMagic expectedMagic stream
  size : (frontHeader stream).length.toNat ≤ maxMessageSize
  frame :
    ((frontHeader stream).length.toNat = 0 ∧
        (isKnownCommand (frontHeader stream).command =
            false ∨
          (frontHeader stream).checksum ≠ 0)) ∨
      (isKnownCommand (frontHeader stream).command = false ∧
        ¬FrontComplete stream)

theorem validateChecksum_empty
    (hEmpty : (frontHeader stream).length.toNat = 0) :
    validateChecksum c (frontPayload stream)
        (frontHeader stream).checksum =
      ((frontHeader stream).checksum == 0) := by
  have hNone : frontPayload stream = [] := by
    rw [frontPayload, hEmpty, List.take_zero]
  rw [hNone]
  rfl

theorem frameStep_eq_readStep_iff
    (c : Crypto)
    (expectedMagic stream : ByteVec) :
    frameStep c expectedMagic stream =
        readStep c expectedMagic stream ↔
      ¬Misread expectedMagic stream := by
  by_cases hLong : headerSize ≤ stream.length
  case neg =>
    have hShort := Nat.not_le.mp hLong
    have hFrame :
        frameStep c expectedMagic stream =
          .stop .exhausted := by
      rw [frameStep, frameMessage, if_pos hShort]
    rw [hFrame, readStep, if_pos hShort]
    exact iff_of_true rfl fun hMisread => hLong hMisread.long
  rw [frameStep_eq c hLong, readStep_eq c hLong]
  by_cases hMagic : FrontMagic expectedMagic stream
  case neg =>
    rw [if_pos (Or.inl hMagic), if_pos (Or.inl hMagic)]
    exact iff_of_true rfl
      fun hMisread => hMagic hMisread.magic
  by_cases hSize :
      (frontHeader stream).length.toNat > maxMessageSize
  case pos =>
    rw [if_pos (Or.inr (Or.inr hSize)),
      if_pos (Or.inr hSize)]
    exact iff_of_true rfl
      fun hMisread => Nat.not_lt.mpr hMisread.size hSize
  have hFrame : Misread expectedMagic stream ↔ _ :=
    ⟨fun hMisread => hMisread.frame,
      fun hFrame => ⟨hLong, hMagic, Nat.not_lt.mp hSize,
        hFrame⟩⟩
  rw [hFrame]
  simp only [hMagic, hSize, not_true_eq_false, or_false,
    false_or, if_false]
  by_cases hEmpty :
      (frontHeader stream).length.toNat = 0
  · have hAll : FrontComplete stream := by
      rw [FrontComplete, hEmpty]
      exact hLong
    rw [validateChecksum_empty hEmpty]
    by_cases hKnown :
        isKnownCommand (frontHeader stream).command = false
    · simp [hEmpty, hKnown]
    · by_cases hSum : (frontHeader stream).checksum = 0
      · simp [hEmpty, hKnown, hAll, hSum]
      · simp [hEmpty, hKnown, hAll, hSum]
  · by_cases hKnown :
        isKnownCommand (frontHeader stream).command = false
    · by_cases hAll : FrontComplete stream
      · simp [hEmpty, hKnown, hAll]
      · simp [hEmpty, hKnown, hAll]
    · simp [hEmpty, hKnown]

end Steps

------------------------------------------------------------
-- Whole Streams
------------------------------------------------------------

section Streams

variable {c : Crypto} {expectedMagic stream : ByteVec}

theorem length_frontRest_lt
    (hLong : headerSize ≤ stream.length) :
    (frontRest stream).length < stream.length := by
  have hPositive : 0 < headerSize := by decide
  rw [frontRest, List.length_drop]
  omega

theorem frameStep_item
    {message : Message}
    {rest : ByteVec}
    (hItem :
      frameStep c expectedMagic stream =
        .item message rest) :
    headerSize ≤ stream.length ∧
      message = frontMessage stream ∧
      rest = frontRest stream ∧
      isKnownCommand (frontHeader stream).command = true ∧
      validateChecksum c (frontPayload stream)
          (frontHeader stream).checksum =
        true := by
  by_cases hLong : headerSize ≤ stream.length
  case neg =>
    rw [frameStep, frameMessage,
      if_pos (Nat.not_le.mp hLong)] at hItem
    cases hItem
  rw [frameStep_eq c hLong] at hItem
  split at hItem
  · cases hItem
  split at hItem
  · cases hItem
  split at hItem
  · cases hItem
  · rename_i hHeader _ hSum
    cases hItem
    rw [not_or, not_or, Bool.not_eq_false] at hHeader
    refine ⟨hLong, rfl, rfl, hHeader.2.1, ?_⟩
    simpa using hSum

theorem readStep_item
    {message : Message}
    {rest : ByteVec}
    (hItem :
      readStep c expectedMagic stream = .item message rest) :
    headerSize ≤ stream.length ∧
      message = frontMessage stream ∧
      rest = frontRest stream := by
  by_cases hLong : headerSize ≤ stream.length
  case neg =>
    rw [readStep, if_pos (Nat.not_le.mp hLong)] at hItem
    cases hItem
  rw [readStep_eq c hLong] at hItem
  split at hItem
  · cases hItem
  split at hItem
  · cases hItem
    exact ⟨hLong, rfl, rfl⟩
  split at hItem
  · cases hItem
  split at hItem
  · cases hItem
  · cases hItem
    exact ⟨hLong, rfl, rfl⟩

theorem frameStep_shrinks
    (c : Crypto)
    (expectedMagic : ByteVec) :
    Framing.Shrinks (frameStep c expectedMagic) := by
  intro stream message rest hItem
  rcases frameStep_item hItem with ⟨hLong, -, rfl, -⟩
  exact length_frontRest_lt hLong

theorem readStep_shrinks
    (c : Crypto)
    (expectedMagic : ByteVec) :
    Framing.Shrinks (readStep c expectedMagic) := by
  intro stream message rest hItem
  rcases readStep_item hItem with ⟨hLong, -, rfl⟩
  exact length_frontRest_lt hLong

/- Every message that is framed has passed its checks. -/
theorem framedMessages_checked
    {message : Message}
    (hMessage :
      message ∈ (framedMessages c expectedMagic stream).1) :
    ∃ header : WireHeader,
      message.command = .ofRaw header.command ∧
        isKnownCommand header.command = true ∧
        validateChecksum c message.payload header.checksum =
          true := by
  induction hSize : stream.length using Nat.strongRecOn
      generalizing stream with
  | ind size ih =>
      unfold framedMessages at hMessage
      cases hNext : frameStep c expectedMagic stream with
      | stop ending =>
          rw [Framing.transcript_stop hNext] at hMessage
          cases hMessage
      | item first rest =>
          rw [Framing.transcript_item
            (frameStep_shrinks c expectedMagic) hNext]
            at hMessage
          rcases frameStep_item hNext with
            ⟨hLong, rfl, rfl, hKnown, hSum⟩
          rcases List.mem_cons.mp hMessage with rfl | hLater
          · exact ⟨frontHeader stream, rfl, hKnown, hSum⟩
          · exact ih _ (hSize ▸ length_frontRest_lt hLong)
              hLater rfl

/-
  The connection hands on what the framer finds and closes
  where the framer does exactly on the streams whose frames
  it gets none of wrong.
-/
theorem connection_reads_frames_iff
    (c : Crypto)
    (expectedMagic stream : ByteVec) :
    (readMessages c expectedMagic stream =
          framedMessages c expectedMagic stream ∧
        ∀ message ∈
            (readMessages c expectedMagic stream).1,
          ∃ header : WireHeader,
            message.command = .ofRaw header.command ∧
              isKnownCommand header.command = true ∧
              validateChecksum c message.payload
                  header.checksum =
                true) ↔
      ∀ rest,
        Framing.Reached (frameStep c expectedMagic) stream
            rest →
          ¬Misread expectedMagic rest := by
  have hAgree := Framing.transcript_eq_iff
    (frameStep_shrinks c expectedMagic)
    (readStep_shrinks c expectedMagic)
    (by
      intro stream message rest found left hFrame hRead
      rcases frameStep_item hFrame with ⟨-, rfl, rfl, -⟩
      rcases readStep_item hRead with ⟨-, rfl, rfl⟩
      exact ⟨rfl, rfl⟩)
    stream
  simp only [frameStep_eq_readStep_iff] at hAgree
  rw [← hAgree]
  constructor
  · exact fun hSame => hSame.1.symm
  · intro hSame
    have hRead :
        readMessages c expectedMagic stream =
          framedMessages c expectedMagic stream :=
      hSame.symm
    refine ⟨hRead, fun message hMessage => ?_⟩
    rw [hRead] at hMessage
    exact framedMessages_checked hMessage

end Streams

namespace Sample

def regtestMagic : ByteVec :=
  magicFromChainId regtestParams.chainId

/- A header without a body, of a command that is not there. -/
def unknownEmpty : ByteVec :=
  regtestMagic ++
    writeU16 0xFFFF ++
    writeU32 0 ++
    writeU32 0

theorem unknown_empty_message_delivered :
    readMessages .reference regtestMagic unknownEmpty =
        ([⟨.other 0xFFFF, []⟩], some .exhausted) ∧
      framedMessages .reference regtestMagic unknownEmpty =
        ([], some .closed) := by
  decide +kernel

end Sample

end Net

end Amarian
