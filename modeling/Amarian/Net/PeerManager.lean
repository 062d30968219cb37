import Amarian.Lib.Penalties
import Amarian.Net.Completion

/-
  The peer manager: its connections, and what the callbacks
  of their sockets and timers do.

  A callback comes when an operation that was started has
  ended.  What the node makes of a message is a parameter,
  but for the messages that the manager itself answers.

  Key definitions include:
    * `Link`
    * `Link.onCallback`
    * `PeerManager`
    * `PeerManager.step`
-/

------------------------------------------------------------
-- One Connection
------------------------------------------------------------

namespace Amarian

namespace Net

open Codec

/- The text of an address, and a port. -/
structure Endpoint where
  host : String
  port : UInt16
deriving DecidableEq

/- How far the dialling of a peer has come. -/
inductive Opening where
  | resolving
  | connecting
  | greeting
deriving DecidableEq

/- Which read is under way. -/
inductive Reading where
  | header
  | body
deriving DecidableEq

/- Which timer is set. -/
inductive Keepalive where
  | interval
  | timeout
deriving DecidableEq

/-
  A connection with the operations that it waits for.  The
  manager keeps whom it dialled with it, and how often the
  connection has said that it is over.
-/
structure Link where
  connection : PeerConnection
  peer : Option Nat
  redialled : Bool
  endpoint : Endpoint
  opening : Option Opening
  reading : Option Reading
  queued : Nat
  writing : Bool
  answers : Nat
  timer : Option Keepalive
  reports : Nat

/- What the callback of a read of a header was given. -/
inductive HeaderRead where
  | failed
  | badMagic
  | oversized
  | body
  | bare (command : Command)

inductive BodyRead where
  | failed
  | badFrame
  | message (message : Message)

/- The callbacks of the asynchronous calls. -/
inductive Callback where
  | opened (ok : Bool)
  | headerRead (result : HeaderRead)
  | bodyRead (result : BodyRead)
  | written (ok : Bool)
  | answered (ok : Bool)
  | timerFired

/- What a connection tells the manager. -/
inductive Output where
  | disconnected
  | connected
  | handed (message : Message)

namespace Link

/- Before its first callback, a peer that was dialled. -/
def dial
    (params : ChainParams)
    (nonce : UInt64)
    (peer : Nat)
    (redialled : Bool)
    (endpoint : Endpoint) : Link :=
  { connection :=
      { handshake := .create params nonce
        inbound := false
        isOpen := true
        connected := false
        pingOutstanding := false
        peerHello := .unknown }
    peer := some peer
    redialled := redialled
    endpoint := endpoint
    opening := some .resolving
    reading := none
    queued := 0
    writing := false
    answers := 0
    timer := none
    reports := 0 }

/- A link that the peer opened. -/
def accept
    (params : ChainParams)
    (nonce : UInt64)
    (endpoint : Endpoint) : Link :=
  { connection := .start params nonce true
    peer := none
    redialled := false
    endpoint := endpoint
    opening := none
    reading := some .header
    queued := 0
    writing := false
    answers := 0
    timer := none
    reports := 0 }

def close
    (link : Link) : Link :=
  { link with connection := link.connection.close }

/- A reported disconnection. -/
def report
    (link : Link) : Link :=
  { link with reports := link.reports + 1 }

/- A write is begun unless there is one. -/
def send
    (link : Link) : Link :=
  { link with queued := link.queued + 1, writing := true }

def isConnected
    (link : Link) : Bool :=
  link.connection.connected

section Callbacks

variable (c : Crypto) (link : Link)

def absorb
    (state : Link × List Output) :
    Event → Link × List Output
  | .sent _ =>
      ({ state.1 with answers := state.1.answers + 1 },
        state.2)
  | .connectedTo _ =>
      ({ state.1 with timer := some .interval },
        state.2 ++ [.connected])
  | .disconnected _ =>
      (state.1.report, state.2 ++ [.disconnected])
  | .handed message =>
      (state.1, state.2 ++ [.handed message])

/- `HandleMessage`, after which the header is read again. -/
def onMessage
    (message : Message) : Link × List Output :=
  let (connection, events) :=
    link.connection.handleMessage c message
  events.foldl absorb
    ({ link with connection, reading := some .header }, [])

/- A dial that failed is reported as a disconnection. -/
def onOpened
    (ok : Bool) : Link × List Output :=
  match link.opening with
  | none => (link, [])
  | some stage =>
      if !ok then
        ({ link with opening := none }.report,
          [.disconnected])
      else
        match stage with
        | .resolving =>
            ({ link with opening := some .connecting }, [])
        | .connecting =>
            ({ link with
                opening := some .greeting
                connection :=
                  { link.connection with
                    handshake :=
                      link.connection.handshake.onSendHello } },
              [])
        | .greeting =>
            ({ link with
                opening := none
                reading := some .header },
              [])

/- A message without a body is not framed a second time. -/
def onHeader
    (result : HeaderRead) : Link × List Output :=
  if link.reading ≠ some .header then
    (link, [])
  else
    match result with
    | .failed =>
        ({ link with reading := none }.report,
          [.disconnected])
    | .badMagic | .oversized =>
        ({ link with reading := none }.report.close,
          [.disconnected])
    | .body => ({ link with reading := some .body }, [])
    | .bare command =>
        link.onMessage c { command, payload := [] }

def onBody
    (result : BodyRead) : Link × List Output :=
  if link.reading ≠ some .body then
    (link, [])
  else
    match result with
    | .failed =>
        ({ link with reading := none }.report,
          [.disconnected])
    | .badFrame =>
        ({ link with reading := none }.report.close,
          [.disconnected])
    | .message message => link.onMessage c message

/- The message at the front stays there if it failed. -/
def onWritten
    (ok : Bool) : Link × List Output :=
  if !link.writing then
    (link, [])
  else if !ok then
    ({ link with writing := false }.report,
      [.disconnected])
  else
    ({ link with
        queued := link.queued - 1
        writing := decide (1 < link.queued) },
      [])

/- A failed write is reported as a disconnection. -/
def onAnswered
    (ok : Bool) : Link × List Output :=
  if link.answers = 0 then
    (link, [])
  else if !ok then
    ({ link with answers := link.answers - 1 }.report,
      [.disconnected])
  else
    ({ link with answers := link.answers - 1 }, [])

/- The first timer sends a ping, the second ends the link. -/
def onTimer : Link × List Output :=
  match link.timer with
  | none => (link, [])
  | some stage =>
      if !link.isConnected then
        ({ link with timer := none }, [])
      else if link.connection.pingOutstanding then
        ({ link with timer := none }.report.close,
          [.disconnected])
      else
        match stage with
        | .interval =>
            ({ link with
                timer := some .timeout
                connection :=
                  { link.connection with
                    pingOutstanding := true } }.send,
              [])
        | .timeout =>
            ({ link with timer := some .interval }, [])

/- One handler for every callback. -/
def onCallback : Callback → Link × List Output
  | .opened ok => link.onOpened ok
  | .headerRead result => link.onHeader c result
  | .bodyRead result => link.onBody c result
  | .written ok => link.onWritten ok
  | .answered ok => link.onAnswered ok
  | .timerFired => link.onTimer

end Callbacks

end Link

------------------------------------------------------------
-- The Manager
------------------------------------------------------------

/-
  The addresses to dial are split at their colons, and none
  of them is without a host.
-/
structure NetConfig where
  params : ChainParams
  connect : List Endpoint
  maxOutbound : Nat
  maxInbound : Nat
  banThreshold : Int
  banDuration : Nat
  localNonce : UInt64

def NetConfig.rules
    (config : NetConfig) : Penalties.Rules :=
  { threshold := config.banThreshold
    duration := config.banDuration }

/- What is sent to the peer, and to all that are connected. -/
structure Reaction where
  sends : Nat
  announces : Nat
  closes : Bool

def Reaction.none : Reaction :=
  { sends := 0
    announces := 0
    closes := false }

abbrev NodeHandler (σ : Type) : Type :=
  σ → Command → ByteVec → σ × Reaction

/- The links, the redials and the ban book. -/
structure PeerManager (σ : Type) where
  node : σ
  links : List Link
  scheduled : List Nat
  book : Penalties.Book Endpoint
  clock : Nat

/-
  What can happen to a manager that was started.  An endpoint
  cannot be read from a socket that has been reset.
-/
inductive NetEvent where
  | accept
      (remote : Endpoint)
      (readable : Bool)
  | callback
      (index : Nat)
      (callback : Callback)
      (readable : Bool)
  | redial (place : Nat)
  | announce
  | tick (seconds : Nat)

namespace PeerManager

variable {σ : Type}

section Steps

variable (c : Crypto) (handler : NodeHandler σ)
variable (config : NetConfig)

def start
    (node : σ) : PeerManager σ :=
  { node := node
    links :=
      (config.connect.take config.maxOutbound).mapIdx
        fun peer endpoint =>
          .dial config.params config.localNonce peer false
            endpoint
    scheduled := []
    book := .empty
    clock := 0 }

def update
    (manager : PeerManager σ)
    (index : Nat)
    (change : Link → Link) : PeerManager σ :=
  { manager with links := manager.links.modify index change }

/- One announcement, sent to every connected link. -/
def announceOnce
    (manager : PeerManager σ) : PeerManager σ :=
  { manager with
    links :=
      manager.links.map fun link =>
        if link.isConnected then link.send else link }

/- `EndpointKey`: a dialled peer has its key at hand. -/
def endpointKey
    (link : Link)
    (readable : Bool) : Option Endpoint :=
  if link.peer.isSome || readable then some link.endpoint
  else none

def scorePeer
    (manager : PeerManager σ)
    (index : Nat)
    (readable : Bool)
    (points : Int) : PeerManager σ :=
  match manager.links[index]?.bind (endpointKey · readable) with
  | none => manager
  | some key =>
      let (banned, book) :=
        Penalties.score config.rules manager.clock key points
          manager.book
      let scored := { manager with book }
      if banned then scored.update index .close else scored

/- A payload that is not what its command says. -/
def isMalformed
    (command : Command)
    (payload : ByteVec) : Bool :=
  match command with
  | .getAddr => !payload.isEmpty
  | .addr =>
      (decodeWhole (AddrPayload.deserialize 1000)
        payload).isNone
  | _ => false

def react
    (manager : PeerManager σ)
    (index : Nat)
    (reaction : Reaction) : PeerManager σ :=
  let announced :=
    (List.range reaction.announces).foldl
      (fun manager _ => manager.announceOnce) manager
  let answered :=
    (List.range reaction.sends).foldl
      (fun manager _ => manager.update index .send) announced
  if reaction.closes then answered.update index .close
  else answered

/- Only these two messages are scored. -/
def handle
    (manager : PeerManager σ)
    (index : Nat)
    (readable : Bool)
    (message : Message) : PeerManager σ :=
  if message.command = .getAddr ∨ message.command = .addr then
    if isMalformed message.command message.payload then
      (manager.scorePeer config index readable 20).update
        index .close
    else if message.command = .getAddr then
      manager.update index .send
    else
      manager
  else
    let (node, reaction) :=
      handler manager.node message.command message.payload
    { manager with node }.react index reaction

/- Only the end of a first connection is acted upon. -/
def schedule
    (manager : PeerManager σ)
    (link : Link) : PeerManager σ :=
  match link.peer with
  | none => manager
  | some peer =>
      if link.redialled then manager
      else
        { manager with
          scheduled := manager.scheduled ++ [peer] }

/- A peer that was redialled is not asked for addresses. -/
def absorb
    (index : Nat)
    (link : Link)
    (readable : Bool)
    (manager : PeerManager σ) : Output → PeerManager σ
  | .disconnected => manager.schedule link
  | .connected =>
      if link.redialled then manager.update index .send
      else (manager.update index .send).update index .send
  | .handed message =>
      manager.handle handler config index readable message

/- A full manager and the ban book turn the socket away. -/
def acceptSocket
    (manager : PeerManager σ)
    (remote : Endpoint)
    (readable : Bool) : PeerManager σ :=
  if manager.links.length ≥
      config.maxInbound + config.maxOutbound then
    manager
  else
    let (banned, book) :=
      if readable then
        Penalties.check manager.clock remote manager.book
      else
        (false, manager.book)
    if banned then
      { manager with book }
    else
      { manager with
        book
        links :=
          manager.links ++
            [.accept config.params config.localNonce remote] }

def redialPeer
    (manager : PeerManager σ)
    (place : Nat) : PeerManager σ :=
  match manager.scheduled[place]? with
  | none => manager
  | some peer =>
      match config.connect[peer]? with
      | none => manager
      | some endpoint =>
          { manager with
            scheduled := manager.scheduled.eraseIdx place
            links :=
              manager.links ++
                [.dial config.params config.localNonce peer
                  true endpoint] }

def step
    (manager : PeerManager σ) : NetEvent → PeerManager σ
  | .accept remote readable =>
      manager.acceptSocket config remote readable
  | .callback index callback readable =>
      match manager.links[index]? with
      | none => manager
      | some link =>
          let (after, outputs) := link.onCallback c callback
          outputs.foldl
            (absorb handler config index link readable)
            (manager.update index fun _ => after)
  | .redial place => manager.redialPeer config place
  | .announce => manager.announceOnce
  | .tick seconds =>
      { manager with clock := manager.clock + seconds }

/- The manager after the events. -/
def run
    (manager : PeerManager σ)
    (events : List NetEvent) : PeerManager σ :=
  events.foldl (step c handler config) manager

end Steps

def peerCount
    (manager : PeerManager σ) : Nat :=
  manager.links.length

end PeerManager

------------------------------------------------------------
-- Samples
------------------------------------------------------------

namespace Sample

def quietNode : NodeHandler Unit := fun node _ _ =>
  (node, .none)

/- The limits of the source, and nobody to dial. -/
def defaultConfig : NetConfig :=
  { params := regtestParams
    connect := []
    maxOutbound := 8
    maxInbound := 32
    banThreshold := 100
    banDuration := 24 * 60 * 60
    localNonce := 1 }

def localhost (port : UInt16) : Endpoint :=
  { host := "127.0.0.1"
    port }

end Sample

end Net

end Amarian
