import Amarian.Net.Message
import Amarian.Net.Protocol

/-
  Messages and their payloads are read back as written.

  Key definitions include:
    * `Command.isNamed`
    * `wireBytes`
    * `RoundTrips`

  Key theorems include:
    * `frameMessage_serialiseMessage`
    * `frameMessage_cut`
    * `messages_roundTrip`
-/

------------------------------------------------------------
-- The Header As Written
------------------------------------------------------------

namespace Amarian

namespace Net

open Codec

/- One of the identifiers in use. -/
def Command.isNamed : Command → Bool
  | .other _ => false
  | _ => true

theorem Command.named_known
    {command : Command}
    (hNamed : command.isNamed = true) :
    isKnownCommand command.raw = true ∧
      Command.ofRaw command.raw = command := by
  cases command with
  | other raw => cases hNamed
  | _ => exact ⟨rfl, rfl⟩

def wireBytes
    (magic : ByteVec)
    (header : WireHeader) : ByteVec :=
  magic ++ writeU16 header.command ++
    writeU32 header.length ++ writeU32 header.checksum

section Wire

variable {magic : ByteVec} {header : WireHeader}

theorem length_wireBytes
    (hMagic : magic.length = 4) :
    (wireBytes magic header).length = headerSize := by
  simp only [wireBytes, writeU16, writeU32,
    List.length_append, length_littleEndian, hMagic,
    headerSize]

/- The fields are found at their places. -/
theorem wireHeader_wireBytes
    (hMagic : magic.length = 4) :
    wireHeader (wireBytes magic header) = header := by
  have hCommand : (writeU16 header.command).length = 2 :=
    length_littleEndian 2 _
  have hLength : (writeU32 header.length).length = 4 :=
    length_littleEndian 4 _
  have hChecksum : (writeU32 header.checksum).length = 4 :=
    length_littleEndian 4 _
  have hSix :
      (magic ++ writeU16 header.command).length = 6 := by
    rw [List.length_append, hMagic, hCommand]
  have hTen :
      (magic ++ writeU16 header.command ++
        writeU32 header.length).length = 10 := by
    rw [List.length_append, hSix, hLength]
  have hFirst :
      ((wireBytes magic header).drop 4).take 2 =
        writeU16 header.command := by
    rw [wireBytes, List.append_assoc, List.append_assoc,
      List.drop_left' hMagic, List.take_left' hCommand]
  have hSecond :
      ((wireBytes magic header).drop 6).take 4 =
        writeU32 header.length := by
    rw [wireBytes, List.append_assoc, List.drop_left' hSix,
      List.take_left' hLength]
  have hThird :
      ((wireBytes magic header).drop 10).take 4 =
        writeU32 header.checksum := by
    rw [wireBytes, List.drop_left' hTen,
      List.take_of_length_le (Nat.le_of_eq hChecksum)]
  rw [wireHeader, hFirst, hSecond, hThird, writeU16, writeU32,
    writeU32,
    fromLittleEndian_littleEndian header.command.toNat_lt,
    fromLittleEndian_littleEndian header.length.toNat_lt,
    fromLittleEndian_littleEndian header.checksum.toNat_lt,
    UInt16.ofNat_toNat, UInt32.ofNat_toNat,
    UInt32.ofNat_toNat]

/- What the framer finds at the front of the stream. -/
theorem front_of_prefix
    {stream : ByteVec}
    (hMagic : magic.length = 4)
    (hFront : wireBytes magic header <+: stream) :
    FrontMagic magic stream ∧ frontHeader stream = header := by
  rcases hFront with ⟨rest, rfl⟩
  have hTaken :
      (wireBytes magic header ++ rest).take headerSize =
        wireBytes magic header :=
    List.take_left' (length_wireBytes hMagic)
  rw [FrontMagic, frontHeader, hTaken,
    wireHeader_wireBytes hMagic]
  refine ⟨?_, rfl⟩
  rw [wireBytes, List.append_assoc, List.append_assoc,
    List.take_left' hMagic]

end Wire

------------------------------------------------------------
-- Messages
------------------------------------------------------------

section Messages

variable (c : Crypto)
variable {command : Command} {payload magic : ByteVec}

/- The header that a payload is sent under. -/
def headerOf
    (c : Crypto)
    (command : Command)
    (payload : ByteVec) : WireHeader :=
  { command := command.raw
    length := UInt32.ofNat payload.length
    checksum :=
      if payload.length > 0 then payloadChecksum c payload
      else 0 }

theorem serialiseMessage_eq :
    serialiseMessage c command payload magic =
      wireBytes magic (headerOf c command payload) ++
        payload :=
  rfl

theorem headerOf_command :
    (headerOf c command payload).command = command.raw :=
  rfl

theorem headerOf_length
    (hSize : payload.length ≤ maxMessageSize) :
    (headerOf c command payload).length.toNat =
      payload.length := by
  change (UInt32.ofNat payload.length).toNat = _
  rw [UInt32.toNat_ofNat']
  unfold maxMessageSize at hSize
  omega

theorem validateChecksum_headerOf :
    validateChecksum c payload
      (headerOf c command payload).checksum = true := by
  unfold validateChecksum headerOf
  split
  · rename_i hNone
    rw [if_neg (by omega)]
    rfl
  · rename_i hSome
    rw [if_pos (by omega)]
    exact beq_self_eq_true _

theorem length_serialiseMessage
    (hMagic : magic.length = 4) :
    (serialiseMessage c command payload magic).length =
      headerSize + payload.length := by
  rw [serialiseMessage_eq, List.length_append,
    length_wireBytes hMagic]

/- Whatever the payload hashes to, and whatever follows. -/
theorem frameMessage_serialiseMessage
    (hMagic : magic.length = 4)
    (hNamed : command.isNamed = true)
    (hSize : payload.length ≤ maxMessageSize)
    (rest : ByteVec) :
    frameMessage c
        (serialiseMessage c command payload magic ++ rest)
        magic =
      .complete { command, payload }
        (headerSize + payload.length) := by
  rcases Command.named_known hNamed with
    ⟨hKnown, hCommand⟩
  have hLength :
      (headerOf c command payload).length.toNat =
        payload.length :=
    headerOf_length c hSize
  have hWire :
      (wireBytes magic (headerOf c command payload)).length =
        headerSize :=
    length_wireBytes hMagic
  rw [serialiseMessage_eq, List.append_assoc]
  have hLong :
      headerSize ≤
        (wireBytes magic (headerOf c command payload) ++
          (payload ++ rest)).length := by
    rw [List.length_append, hWire]
    exact Nat.le_add_right _ _
  rcases front_of_prefix hMagic
    (List.prefix_append (wireBytes magic
      (headerOf c command payload)) (payload ++ rest)) with
    ⟨hFront, hHeader⟩
  have hPayload :
      frontPayload
          (wireBytes magic (headerOf c command payload) ++
            (payload ++ rest)) =
        payload := by
    rw [frontPayload, hHeader, hLength,
      List.drop_left' hWire, List.take_left' rfl]
  have hComplete :
      FrontComplete
        (wireBytes magic (headerOf c command payload) ++
          (payload ++ rest)) := by
    rw [FrontComplete, hHeader, hLength, List.length_append,
      List.length_append, hWire]
    omega
  rw [frameMessage_eq c hLong, if_neg (not_not.mpr hFront),
    hHeader, hLength,
    if_neg (by
      rw [headerOf_command, hKnown]
      exact Bool.false_ne_true),
    if_neg (Nat.not_lt.mpr hSize),
    if_neg (not_not.mpr hComplete), hPayload,
    validateChecksum_headerOf, Bool.not_true,
    if_neg Bool.false_ne_true, frontMessage, hHeader,
    hPayload, headerOf_command, hCommand]

/- The beginning of a message waits for the rest of it. -/
theorem frameMessage_cut
    (hMagic : magic.length = 4)
    (hNamed : command.isNamed = true)
    (hSize : payload.length ≤ maxMessageSize)
    {front : ByteVec}
    (hFront :
      front <+: serialiseMessage c command payload magic)
    (hProper :
      front ≠ serialiseMessage c command payload magic) :
    frameMessage c front magic = .needMore := by
  have hLength :
      (headerOf c command payload).length.toNat =
        payload.length :=
    headerOf_length c hSize
  have hWire :
      (wireBytes magic (headerOf c command payload)).length =
        headerSize :=
    length_wireBytes hMagic
  have hShort :
      front.length < headerSize + payload.length := by
    have hLe := hFront.length_le
    have hNe :
        front.length ≠
          (serialiseMessage c command payload magic).length :=
      fun hSame => hProper (hFront.eq_of_length hSame)
    rw [length_serialiseMessage c hMagic] at hLe hNe
    omega
  by_cases hLong : headerSize ≤ front.length
  case neg =>
    rw [frameMessage, if_pos (Nat.not_le.mp hLong)]
  have hHead :
      wireBytes magic (headerOf c command payload) <+:
        front := by
    refine List.prefix_of_prefix_length_le ?_ hFront ?_
    · rw [serialiseMessage_eq]
      exact List.prefix_append _ _
    · rw [hWire]
      exact hLong
  rcases front_of_prefix hMagic hHead with ⟨hFor, hHeader⟩
  have hKnown := (Command.named_known hNamed).1
  rw [frameMessage_eq c hLong, if_neg (not_not.mpr hFor),
    hHeader, hLength,
    if_neg (by
      rw [headerOf_command, hKnown]
      exact Bool.false_ne_true),
    if_neg (Nat.not_lt.mpr hSize), if_pos]
  rw [FrontComplete, hHeader, hLength]
  omega

end Messages

------------------------------------------------------------
-- Payloads
------------------------------------------------------------

theorem HelloPayload.deserialize_canonical
    (maxUserAgentLen : Nat) :
    Canonical HelloPayload.serialize
      (HelloPayload.deserialize maxUserAgentLen)
      fun hello =>
        Sized maxUserAgentLen hello.userAgent.length := by
  have hFields :
      Canonical
        (fun hello : HelloPayload =>
          writeU32 hello.protocolVersion ++
            (writeU64 hello.services ++
              (writeI64 hello.timestamp ++
                (writeHash256 hello.chainId ++
                  (writeU32 hello.bestHeight ++
                    (writeU64 hello.nonce ++
                      (writeByteString hello.userAgent ++
                        [])))))))
        (HelloPayload.deserialize maxUserAgentLen)
        fun hello =>
          Sized maxUserAgentLen hello.userAgent.length := by
    apply Canonical.step HelloPayload.protocolVersion
      readU32_canonical fun _ _ => trivial
    intro version _
    apply Canonical.step HelloPayload.services
      readU64_canonical fun _ _ => trivial
    intro services _
    apply Canonical.step HelloPayload.timestamp
      readI64_canonical fun _ _ => trivial
    intro timestamp _
    apply Canonical.step HelloPayload.chainId
      readHash256_canonical fun _ _ => trivial
    intro chainId _
    apply Canonical.step HelloPayload.bestHeight
      readU32_canonical fun _ _ => trivial
    intro height _
    apply Canonical.step HelloPayload.nonce
      readU64_canonical fun _ _ => trivial
    intro nonce _
    apply Canonical.step HelloPayload.userAgent
      (readByteString_canonical maxUserAgentLen)
      fun _ hWhole => hWhole.1.1.1.1.1.1
    intro agent hAgent
    apply Canonical.done
    · exact ⟨⟨⟨⟨⟨⟨⟨hAgent, rfl⟩, rfl⟩, rfl⟩, rfl⟩, rfl⟩,
        rfl⟩, rfl⟩
    · rintro hello
        ⟨⟨⟨⟨⟨⟨⟨-, rfl⟩, rfl⟩, rfl⟩, rfl⟩, rfl⟩, rfl⟩, rfl⟩
      rfl
  apply Canonical.congr (fun _ => Iff.rfl) _ hFields
  intro hello _
  simp only [HelloPayload.serialize, List.append_assoc,
    List.append_nil]

/- What is written is read back, and no byte behind it. -/
def RoundTrips
    {α : Type}
    (serialize : α → ByteVec)
    (deserialize : Decoder UInt8 α)
    (fits : α → Prop) : Prop :=
  ∀ value rest, fits value →
    deserialize (.ofList (serialize value ++ rest)) =
      (some value, .ofList rest)

theorem sized_of_limit
    {limit : UInt64}
    {count : Nat}
    (hCount : count ≤ limit.toNat) :
    Sized limit.toNat count :=
  ⟨hCount, Nat.lt_of_le_of_lt hCount limit.toNat_lt⟩

/-
  Every message of a command in use is framed again whatever
  follows it, none of its beginnings is, and the payloads
  within a limit are read back.
-/
theorem messages_roundTrip
    (c : Crypto)
    (magic : ByteVec)
    (hMagic : magic.length = 4)
    (limit : UInt64) :
    (∀ command payload,
      Command.isNamed command = true →
        payload.length ≤ maxMessageSize →
          (∀ rest,
            frameMessage c
                (serialiseMessage c command payload magic ++
                  rest) magic =
              .complete { command, payload }
                (headerSize + payload.length)) ∧
            ∀ front,
              front <+:
                  serialiseMessage c command payload magic →
                front ≠
                    serialiseMessage c command payload
                      magic →
                  frameMessage c front magic = .needMore) ∧
      RoundTrips HelloPayload.serialize
        (HelloPayload.deserialize limit.toNat)
        (fun hello =>
          hello.userAgent.length ≤ limit.toNat) ∧
      RoundTrips GetHeadersPayload.serialize
        (GetHeadersPayload.deserialize limit.toNat)
        (fun request =>
          request.locator.length ≤ limit.toNat) ∧
      RoundTrips HeadersPayload.serialize
        HeadersPayload.deserialize
        (fun payload =>
          payload.headers.length ≤
            HeadersPayload.maxCount) ∧
      RoundTrips GetDataPayload.serialize
        (GetDataPayload.deserialize limit.toNat)
        (fun payload =>
          payload.items.length ≤ limit.toNat) ∧
      RoundTrips AddrPayload.serialize
        (AddrPayload.deserialize limit.toNat)
        (fun payload =>
          payload.addresses.length ≤ limit.toNat ∧
            ∀ address ∈ payload.addresses, address.Fits) ∧
      RoundTrips PingPayload.serialize
        PingPayload.deserialize fun _ => True := by
  refine ⟨?_, ?_, ?_, ?_, ?_, ?_, ?_⟩
  · intro command payload hNamed hSize
    exact ⟨frameMessage_serialiseMessage c hMagic hNamed hSize,
      fun front => frameMessage_cut c hMagic hNamed hSize⟩
  · exact fun hello rest hFits =>
      (HelloPayload.deserialize_canonical _).complete hello
        rest (sized_of_limit hFits)
  · exact fun request rest hFits =>
      (GetHeadersPayload.deserialize_canonical _).complete
        request rest (sized_of_limit hFits)
  · intro payload rest hFits
    refine HeadersPayload.deserialize_canonical.complete
      payload rest ⟨hFits, ?_⟩
    exact Nat.lt_of_le_of_lt hFits (by decide)
  · exact fun payload rest hFits =>
      (GetDataPayload.deserialize_canonical _).complete
        payload rest (sized_of_limit hFits)
  · exact fun payload rest hFits =>
      (AddrPayload.deserialize_canonical _).complete payload
        rest ⟨sized_of_limit hFits.1, hFits.2⟩
  · exact fun ping rest _ =>
      PingPayload.deserialize_canonical.complete ping rest
        trivial

namespace Sample

/- A ping on the regression-test network. -/
theorem ping_framed :
    frameMessage .reference
        (serialiseMessage .reference .ping
            (PingPayload.serialize ⟨7⟩) regtestMagic ++ [1])
        regtestMagic =
      .complete { command := .ping, payload :=
        PingPayload.serialize ⟨7⟩ } 22 := by
  have hMagic : regtestMagic.length = 4 := by
    decide +kernel
  exact ((messages_roundTrip .reference regtestMagic hMagic
    0).1 .ping (PingPayload.serialize ⟨7⟩) rfl
      (by decide)).1 [1]

end Sample

end Net

end Amarian
