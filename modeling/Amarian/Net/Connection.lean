import Amarian.Net.Message
import Amarian.Net.Protocol
import Mathlib.Data.List.Induction

/-
  The handshake of a connection and what the connection makes
  of the messages it reads.

  Two machines work together.  The handshake knows how far
  the exchange of greetings has come; the connection feeds it
  and hands everything else to the peer manager's handler,
  which is a parameter here.

  Key definitions include:
    * `Handshake`
    * `PeerConnection.handleMessage`
    * `Session.receive`
    * `Session.Guarded`

  Key theorems include:
    * `Session.greeted_of_acknowledged`
    * `Session.guarded_iff`
-/

------------------------------------------------------------
-- The Handshake
------------------------------------------------------------

namespace Amarian

namespace Net

open Codec

/- The states of the handshake. -/
inductive HandshakeState where
  | awaitingSendHello
  | awaitingReceiveHello
  | awaitingReceiveHelloAck
  | complete
  | failed
deriving DecidableEq

/- What the exchange tells about a peer. -/
structure PeerHello where
  protocolVersion : UInt32
  services : UInt64
  timestamp : Int64
  chainId : Hash256
  bestHeight : UInt32
  nonce : UInt64
  userAgent : ByteVec
deriving DecidableEq

/- What is known of the peer before its hello. -/
def PeerHello.unknown : PeerHello :=
  { protocolVersion := 0
    services := 0
    timestamp := 0
    chainId := Bytes32.zero
    bestHeight := 0
    nonce := 0
    userAgent := [] }

/- The state of one handshake and what it learned. -/
structure Handshake where
  params : ChainParams
  localNonce : UInt64
  state : HandshakeState
  peer : PeerHello
  failureReason : String

namespace Handshake

def create
    (params : ChainParams)
    (localNonce : UInt64) : Handshake :=
  { params
    localNonce
    state := .awaitingSendHello
    peer := .unknown
    failureReason := "" }

/- The time and the height are placeholders in the source. -/
def buildHello
    (handshake : Handshake) : HelloPayload :=
  { protocolVersion := 1
    services := nodeHistorical ||| nodeRelay
    timestamp := handshake.params.genesisTimestamp
    chainId := handshake.params.chainId
    bestHeight := 0
    nonce := handshake.localNonce
    userAgent := asciiBytes "amarian/0.1" }

def onSendHello
    (handshake : Handshake) : Handshake :=
  if handshake.state = .awaitingSendHello then
    { handshake with state := .awaitingReceiveHello }
  else
    handshake

/- A failed handshake keeps its reason. -/
def fail
    (handshake : Handshake)
    (reason : String) : Handshake :=
  { handshake with state := .failed, failureReason := reason }

/- Whether the greeting is answered, and what is kept of it. -/
def receiveHello
    (handshake : Handshake)
    (hello : HelloPayload) : Bool × Handshake :=
  if hello.chainId ≠ handshake.params.chainId then
    (false, handshake.fail "peer is on a different network")
  else if hello.nonce = handshake.localNonce then
    (false, handshake.fail "connected to self")
  else if hello.protocolVersion < 1 then
    (false, handshake.fail "peer protocol version too old")
  else
    (true,
      { handshake with
        state := .awaitingReceiveHelloAck
        peer :=
          { protocolVersion := hello.protocolVersion
            services := hello.services
            timestamp := hello.timestamp
            chainId := hello.chainId
            bestHeight := hello.bestHeight
            nonce := hello.nonce
            userAgent := hello.userAgent } })

def onReceiveHelloAck
    (handshake : Handshake) : Bool × Handshake :=
  if handshake.state ≠ .awaitingReceiveHelloAck then
    (false, handshake.fail
      "received HelloAck at unexpected time")
  else
    (true, { handshake with state := .complete })

end Handshake

------------------------------------------------------------
-- The Connection
------------------------------------------------------------

/- One connection, with its handshake. -/
structure PeerConnection where
  handshake : Handshake
  inbound : Bool
  isOpen : Bool
  connected : Bool
  pingOutstanding : Bool
  peerHello : PeerHello

/- What handling a message does besides changing the state. -/
inductive Event where
  | sent (bytes : ByteVec)
  | connectedTo (hello : PeerHello)
  | disconnected (reason : String)
  | handed (message : Message)

namespace PeerConnection

/-
  Where a connection starts to read.  The side that dialled
  has sent its greeting by then.
-/
def start
    (params : ChainParams)
    (nonce : UInt64)
    (inbound : Bool) : PeerConnection :=
  { handshake :=
      if inbound then .create params nonce
      else (Handshake.create params nonce).onSendHello
    inbound
    isOpen := true
    connected := false
    pingOutstanding := false
    peerHello := .unknown }

/- A closed connection is no longer connected. -/
def close
    (connection : PeerConnection) : PeerConnection :=
  { connection with isOpen := false, connected := false }

def magic
    (connection : PeerConnection) : ByteVec :=
  magicFromChainId connection.handshake.params.chainId

/- The listening side greets before it acknowledges. -/
def helloResponse
    (c : Crypto)
    (connection : PeerConnection) : ByteVec :=
  let ack :=
    serialiseMessage c .helloAck [] connection.magic
  if connection.inbound then
    serialiseMessage c .hello
        connection.handshake.buildHello.serialize
        connection.magic ++
      ack
  else
    ack

def handleHello
    (c : Crypto)
    (connection : PeerConnection)
    (payload : ByteVec) : PeerConnection × List Event :=
  match (HelloPayload.deserialize 256 (.ofList payload)).1 with
  | none =>
      (connection.close, [.disconnected "malformed hello"])
  | some hello =>
      let (answered, handshake) :=
        connection.handshake.receiveHello hello
      let greeted := { connection with handshake }
      if answered then
        (greeted, [.sent (greeted.helloResponse c)])
      else
        (greeted.close,
          [.disconnected handshake.failureReason])

def handleHelloAck
    (connection : PeerConnection) :
    PeerConnection × List Event :=
  let (expected, handshake) :=
    connection.handshake.onReceiveHelloAck
  let acknowledged := { connection with handshake }
  if expected then
    ({ acknowledged with
        peerHello := handshake.peer
        connected := true },
      [.connectedTo handshake.peer])
  else
    (acknowledged.close,
      [.disconnected handshake.failureReason])

/-
  Whatever is not part of the handshake goes to the peer
  manager.  A number that is no command does not count as a
  sign of life, but it is handed on like the others.
-/
def handleMessage
    (c : Crypto)
    (connection : PeerConnection)
    (message : Message) : PeerConnection × List Event :=
  match message.command with
  | .hello => connection.handleHello c message.payload
  | .helloAck => connection.handleHelloAck
  | .other _ => (connection, [.handed message])
  | _ =>
      ({ connection with pingOutstanding := false },
        [.handed message])

end PeerConnection

------------------------------------------------------------
-- A Connection Of A Node
------------------------------------------------------------

/-
  The peer manager's handler: what it makes of the node, and
  whether it leaves the peer connected.
-/
abbrev MessageHandler (σ : Type) : Type :=
  σ → Command → ByteVec → σ × Bool

/- A connection and the node behind it. -/
structure Session (σ : Type) where
  connection : PeerConnection
  node : σ

namespace Session

variable {σ : Type}

/- One event of the connection, told to the node. -/
def deliver
    (handler : MessageHandler σ)
    (session : Session σ) : Event → Session σ
  | .handed message =>
      let (node, keep) :=
        handler session.node message.command message.payload
      { connection :=
          if keep then session.connection
          else session.connection.close
        node }
  | _ => session

/- Nothing more is read from a connection that was closed. -/
def receive
    (c : Crypto)
    (handler : MessageHandler σ)
    (session : Session σ)
    (message : Message) : Session σ :=
  if session.connection.isOpen then
    let (connection, events) :=
      session.connection.handleMessage c message
    events.foldl (deliver handler)
      { connection, node := session.node }
  else
    session

/- The session after the messages. -/
def run
    (c : Crypto)
    (handler : MessageHandler σ)
    (session : Session σ)
    (messages : List Message) : Session σ :=
  messages.foldl (receive c handler) session

/- The peer manager's handler gets to see the message. -/
def Hands
    (c : Crypto)
    (session : Session σ)
    (message : Message) : Prop :=
  session.connection.isOpen = true ∧
    Event.handed message ∈
      (session.connection.handleMessage c message).2

/- A greeting that the handshake accepts. -/
def AcceptsHello
    (session : Session σ)
    (message : Message) : Prop :=
  session.connection.isOpen = true ∧
    message.command = .hello ∧
    ∃ hello,
      (HelloPayload.deserialize 256
            (.ofList message.payload)).1 =
          some hello ∧
        (session.connection.handshake.receiveHello hello).1 =
          true

/- An acknowledgement that the handshake expects. -/
def AcceptsHelloAck
    (session : Session σ)
    (message : Message) : Prop :=
  session.connection.isOpen = true ∧
    message.command = .helloAck ∧
    session.connection.handshake.onReceiveHelloAck.1 = true

/- The two messages of the handshake. -/
def isGreeting
    (message : Message) : Bool :=
  decide (message.command = .hello) ||
    decide (message.command = .helloAck)

section Runs

variable (c : Crypto) (handler : MessageHandler σ)
variable (session : Session σ)

/- One of the messages was such a step of the run. -/
def Passed
    (step : Session σ → Message → Prop)
    (messages : List Message) : Prop :=
  ∃ before message after,
    messages = before ++ message :: after ∧
      step (session.run c handler before) message

/- A greeting and an acknowledgement have been processed. -/
def Established
    (messages : List Message) : Prop :=
  session.Passed c handler AcceptsHello messages ∧
    session.Passed c handler AcceptsHelloAck messages

/-
  A message that comes before the handshake is complete is
  not processed, its sender is disconnected and the node is
  as it was.
-/
def Guarded
    (messages : List Message) : Prop :=
  ∀ before message after,
    messages = before ++ message :: after →
      (session.run c handler before).connection.isOpen =
          true →
        isGreeting message = false →
          ¬session.Established c handler before →
            ¬(session.run c handler before).Hands c message ∧
              ((session.run c handler before).receive c
                    handler message).connection.isOpen =
                  false ∧
                ((session.run c handler before).receive c
                    handler message).node =
                  (session.run c handler before).node

/- Nothing else comes before an acknowledgement is accepted. -/
def WaitsForHelloAck
    (messages : List Message) : Prop :=
  ∀ before message after,
    messages = before ++ message :: after →
      (session.run c handler before).connection.isOpen =
          true →
        isGreeting message = false →
          session.Passed c handler AcceptsHelloAck before

end Runs

------------------------------------------------------------
-- The Order Of The Greetings
------------------------------------------------------------

section Order

variable {c : Crypto} {handler : MessageHandler σ}
variable {session : Session σ}

theorem run_concat
    (messages : List Message)
    (message : Message) :
    session.run c handler (messages ++ [message]) =
      (session.run c handler messages).receive c handler
        message := by
  rw [run, List.foldl_append]
  rfl

theorem Passed.concat
    {step : Session σ → Message → Prop}
    {messages : List Message}
    (hPassed : session.Passed c handler step messages)
    (message : Message) :
    session.Passed c handler step
      (messages ++ [message]) := by
  rcases hPassed with ⟨before, found, after, rfl, hStep⟩
  exact ⟨before, found, after ++ [message], by simp, hStep⟩

theorem passed_last
    {step : Session σ → Message → Prop}
    {messages : List Message}
    {message : Message}
    (hStep : step (session.run c handler messages) message) :
    session.Passed c handler step (messages ++ [message]) :=
  ⟨messages, message, [], rfl, hStep⟩

/- The handler does not touch the handshake. -/
theorem deliver_handshake
    (session : Session σ)
    (event : Event) :
    (session.deliver handler event).connection.handshake =
      session.connection.handshake := by
  unfold deliver
  split
  · dsimp only
    split <;> rfl
  · rfl

theorem receive_handshake
    (session : Session σ)
    (message : Message) :
    (session.receive c handler message).connection.handshake =
      if session.connection.isOpen then
        (session.connection.handleMessage c
          message).1.handshake
      else
        session.connection.handshake := by
  unfold receive
  split
  · have hFold : ∀ (events : List Event)
        (first : Session σ),
        (events.foldl (deliver handler)
            first).connection.handshake =
          first.connection.handshake := by
      intro events
      induction events with
      | nil => exact fun _ => rfl
      | cons event events ih =>
          intro first
          rw [List.foldl_cons, ih, deliver_handshake]
    exact hFold _ _
  · rfl

theorem receiveHello_state
    (handshake : Handshake)
    (hello : HelloPayload) :
    (handshake.receiveHello hello).1 = true ∨
      (handshake.receiveHello hello).2.state = .failed := by
  unfold Handshake.receiveHello
  split
  · exact .inr rfl
  split
  · exact .inr rfl
  split
  · exact .inr rfl
  · exact .inl rfl

theorem handleHello_handshake
    (connection : PeerConnection)
    (payload : ByteVec) :
    (connection.handleHello c payload).1.handshake =
      match (HelloPayload.deserialize 256
          (.ofList payload)).1 with
      | none => connection.handshake
      | some hello =>
          (connection.handshake.receiveHello hello).2 := by
  unfold PeerConnection.handleHello
  split
  · rfl
  · dsimp only
    split <;> rfl

/-
  By induction on the messages: only an accepted greeting
  makes the handshake wait for an acknowledgement.
-/
theorem passed_of_state
    (hStart :
      session.connection.handshake.state ≠
          .awaitingReceiveHelloAck ∧
        session.connection.handshake.state ≠ .complete)
    (messages : List Message)
    (hState :
      (session.run c handler
            messages).connection.handshake.state =
          .awaitingReceiveHelloAck ∨
        (session.run c handler
            messages).connection.handshake.state =
          .complete) :
    session.Passed c handler AcceptsHello messages := by
  induction messages using List.reverseRecOn with
  | nil =>
      rcases hState with hState | hState
      · exact absurd hState hStart.1
      · exact absurd hState hStart.2
  | append_singleton messages message ih =>
      rw [run_concat, receive_handshake] at hState
      have hKept :
          (session.run c handler
                messages).connection.handshake.state =
              .awaitingReceiveHelloAck ∨
            (session.run c handler
                messages).connection.handshake.state =
              .complete →
            session.Passed c handler AcceptsHello
              (messages ++ [message]) :=
        fun hOld => (ih hOld).concat message
      by_cases hOpen :
          (session.run c handler messages).connection.isOpen =
            true
      case neg =>
        rw [if_neg hOpen] at hState
        exact hKept hState
      rw [if_pos hOpen] at hState
      unfold PeerConnection.handleMessage at hState
      split at hState
      case h_1 hHello =>
        rw [handleHello_handshake] at hState
        split at hState
        case h_1 => exact hKept hState
        case h_2 hello hDecoded =>
          rcases receiveHello_state
            (session.run c handler
              messages).connection.handshake hello with
            hAccepted | hFailed
          · exact passed_last
              ⟨hOpen, hHello, hello, hDecoded, hAccepted⟩
          · rw [hFailed] at hState
            rcases hState with hState | hState
            · cases hState
            · cases hState
      case h_2 =>
        apply hKept
        unfold PeerConnection.handleHelloAck
          Handshake.onReceiveHelloAck at hState
        by_cases hExpected :
            (session.run c handler
                messages).connection.handshake.state =
              .awaitingReceiveHelloAck
        · exact .inl hExpected
        · simp [hExpected, Handshake.fail,
            PeerConnection.close] at hState
      case h_3 => exact hKept hState
      case h_4 => exact hKept hState

/- The second machine never runs ahead of the first one. -/
theorem greeted_of_acknowledged
    (params : ChainParams)
    (nonce : UInt64)
    (inbound : Bool)
    (node : σ)
    {messages : List Message}
    (hAck :
      Passed c handler ⟨.start params nonce inbound, node⟩
        AcceptsHelloAck messages) :
    Established c handler ⟨.start params nonce inbound, node⟩
      messages := by
  refine ⟨?_, hAck⟩
  rcases hAck with
    ⟨before, message, after, rfl, -, -, hExpected⟩
  have hState :
      (run c handler ⟨.start params nonce inbound, node⟩
          before).connection.handshake.state =
        .awaitingReceiveHelloAck := by
    unfold Handshake.onReceiveHelloAck at hExpected
    split at hExpected
    · cases hExpected
    · rename_i hState
      exact not_not.mp hState
  have hStart :
      (PeerConnection.start params nonce
            inbound).handshake.state ≠
          .awaitingReceiveHelloAck ∧
        (PeerConnection.start params nonce
            inbound).handshake.state ≠
          .complete := by
    cases inbound
    · exact ⟨nofun, nofun⟩
    · exact ⟨nofun, nofun⟩
  rcases @passed_of_state _ c handler
    ⟨.start params nonce inbound, node⟩ hStart before
    (.inl hState) with
    ⟨first, hello, rest, rfl, hHello⟩
  exact ⟨first, hello, rest ++ message :: after, by simp,
    hHello⟩

/- Whatever is no greeting is handed on. -/
theorem hands_of_not_greeting
    {message : Message}
    (hOpen : session.connection.isOpen = true)
    (hOther : isGreeting message = false) :
    session.Hands c message := by
  refine ⟨hOpen, ?_⟩
  simp only [isGreeting, Bool.or_eq_false_iff,
    decide_eq_false_iff_not] at hOther
  unfold PeerConnection.handleMessage
  split
  · rename_i hHello
    exact absurd hHello hOther.1
  · rename_i hAck
    exact absurd hAck hOther.2
  · exact List.mem_singleton.mpr rfl
  · exact List.mem_singleton.mpr rfl

end Order

------------------------------------------------------------
-- Guarded Runs
------------------------------------------------------------

/-
  The connection itself turns nothing away: a run is guarded
  exactly if the peer waits for its acknowledgement to be
  accepted before it sends anything else.
-/
theorem guarded_iff
    (c : Crypto)
    (handler : MessageHandler σ)
    (params : ChainParams)
    (nonce : UInt64)
    (inbound : Bool)
    (node : σ)
    (messages : List Message) :
    Guarded c handler ⟨.start params nonce inbound, node⟩
        messages ↔
      WaitsForHelloAck c handler
        ⟨.start params nonce inbound, node⟩ messages := by
  constructor
  · intro hGuarded before message after hSplit hOpen hOther
    by_contra hEarly
    have hNot := hGuarded before message after hSplit hOpen
      hOther fun hEstablished => hEarly hEstablished.2
    exact hNot.1 (hands_of_not_greeting hOpen hOther)
  · intro hWaits before message after hSplit hOpen hOther
      hEarly
    exact absurd
      (greeted_of_acknowledged params nonce inbound node
        (hWaits before message after hSplit hOpen hOther))
      hEarly

end Session

------------------------------------------------------------
-- Gossiped Addresses
------------------------------------------------------------

/- Known addresses are told apart by this text. -/
def addressKey
    (address : NetworkAddress) : List Char :=
  Nat.toDigits 10 address.addrVer.toNat ++
    ':' :: Nat.toDigits 10 address.port.toNat ++
    ':' :: address.address.flatMap
      fun byte => Nat.toDigits 16 byte.toNat

/- The oldest address makes room for the thousand-and-first. -/
def addAddress
    (addresses : List NetworkAddress)
    (address : NetworkAddress) : List NetworkAddress :=
  if (address.addrVer ≠ 4 ∧ address.addrVer ≠ 6) ∨
      address.port = 0 then
    addresses
  else if addresses.any fun known =>
      addressKey known == addressKey address then
    addresses
  else if addresses.length ≥ 1000 then
    addresses.drop 1 ++ [address]
  else
    addresses ++ [address]

/- The peer manager on an address book and nothing else. -/
def handleAddr
    (addresses : List NetworkAddress)
    (command : Command)
    (payload : ByteVec) : List NetworkAddress × Bool :=
  if command = .addr then
    match decodeWhole (AddrPayload.deserialize 1000)
        payload with
    | none => (addresses, false)
    | some received =>
        (received.addresses.foldl addAddress addresses, true)
  else
    (addresses, true)

namespace Sample

/- Somebody dials in and gossips before any greeting. -/
def gossip : Message :=
  { command := .addr
    payload :=
      1 :: 4 :: List.replicate 16 7 ++ writeU16 12500 }

def dialledIn : Session (List NetworkAddress) :=
  { connection := .start regtestParams 1 true, node := [] }

theorem early_gossip_processed :
    ¬dialledIn.Guarded .reference handleAddr [gossip] := by
  intro hGuarded
  have hEarly :
      ¬dialledIn.Established .reference handleAddr [] := by
    rintro ⟨⟨before, message, after, hSplit, -⟩, -⟩
    cases before <;> cases hSplit
  have hUnchanged := (hGuarded [] gossip [] rfl rfl
    (by decide) hEarly).2.2
  have hBook :
      (dialledIn.receive .reference handleAddr
          gossip).node =
        [⟨4, List.replicate 16 7, 12500⟩] := by
    decide +kernel
  rw [show dialledIn.run .reference handleAddr [] =
    dialledIn from rfl, hBook] at hUnchanged
  cases hUnchanged

end Sample

end Net

end Amarian
