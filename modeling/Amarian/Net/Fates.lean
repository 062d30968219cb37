import Amarian.Net.PeerManager

/-
  What one callback does to the connections, to the dialling
  that is scheduled and to the book of points.

  Key definitions include:
    * `Link.fate`
    * `PeerManager.reaction`
    * `Link.reacted`

  Key theorems include:
    * `Link.onCallback_outputs`
    * `PeerManager.step_links`
    * `PeerManager.step_beside`
    * `PeerManager.step_book`
-/

------------------------------------------------------------
-- Fates
------------------------------------------------------------

namespace Amarian

namespace Net

/- How the connection goes on after a callback. -/
inductive Fate where
  | stays
  | ends
  | connects
  | hands (message : Message)

namespace Fate

/- What the link tells the manager. -/
def outputs : Fate → List Output
  | stays => []
  | ends => [.disconnected]
  | connects => [.connected]
  | hands message => [.handed message]

/- Only a link that ends reports a disconnection. -/
def reports : Fate → Nat
  | ends => 1
  | _ => 0

end Fate

namespace Link

section Callbacks

variable (link : Link)

/- The greeting can be read, and the handshake takes it. -/
def greets
    (payload : ByteVec) : Bool :=
  match
    (HelloPayload.deserialize 256 (.ofList payload)).1
  with
  | none => false
  | some hello =>
      (link.connection.handshake.receiveHello hello).1

/- What one whole message does to the link. -/
def messageFate
    (message : Message) : Fate :=
  match message.command with
  | .hello =>
      if link.greets message.payload then .stays else .ends
  | .helloAck =>
      if link.connection.handshake.onReceiveHelloAck.1 then
        .connects
      else
        .ends
  | _ => .hands message

/- A callback that is not waited for never comes. -/
def fate : Callback → Fate
  | .opened ok =>
      if link.opening.isSome && !ok then .ends else .stays
  | .headerRead result =>
      if link.reading ≠ some .header then .stays
      else
        match result with
        | .failed | .badMagic | .oversized => .ends
        | .body => .stays
        | .bare command =>
            link.messageFate { command, payload := [] }
  | .bodyRead result =>
      if link.reading ≠ some .body then .stays
      else
        match result with
        | .failed | .badFrame => .ends
        | .message message => link.messageFate message
  | .written ok =>
      if link.writing && !ok then .ends else .stays
  | .answered ok =>
      if link.answers ≠ 0 && !ok then .ends else .stays
  | .timerFired =>
      if link.timer.isSome && link.isConnected &&
          link.connection.pingOutstanding then
        .ends
      else
        .stays

end Callbacks

/- Whom the manager arranges to dial again. -/
def redials
    (link : Link) : Fate → List Nat
  | .ends =>
      match link.peer with
      | none => []
      | some peer => if link.redialled then [] else [peer]
  | _ => []

/- What a callback leaves of a connection. -/
structure Follows
    (link : Link)
    (fate : Fate)
    (after : Link × List Output) : Prop where
  outputs : after.2 = fate.outputs
  reports : after.1.reports = link.reports + fate.reports
  peer : after.1.peer = link.peer
  redialled : after.1.redialled = link.redialled
  endpoint : after.1.endpoint = link.endpoint
  isOpen :
    fate.reports = 0 →
      after.1.connection.isOpen = link.connection.isOpen

/- The greeting of the peer, with the header read again. -/
theorem follows_hello
    (c : Crypto)
    (link : Link)
    (payload : ByteVec) :
    link.Follows
      (if link.greets payload then .stays else .ends)
      ((link.connection.handleHello c payload).2.foldl absorb
        ({ link with
            connection :=
              (link.connection.handleHello c payload).1
            reading := some .header },
          [])) := by
  unfold greets PeerConnection.handleHello
  cases (HelloPayload.deserialize 256 (.ofList payload)).1 with
  | none => exact ⟨rfl, rfl, rfl, rfl, rfl, nofun⟩
  | some hello =>
      dsimp only
      split
      · exact ⟨rfl, rfl, rfl, rfl, rfl, fun _ => rfl⟩
      · exact ⟨rfl, rfl, rfl, rfl, rfl, nofun⟩

theorem follows_onMessage
    (c : Crypto)
    (link : Link)
    (message : Message) :
    link.Follows (link.messageFate message)
      (link.onMessage c message) := by
  unfold messageFate onMessage PeerConnection.handleMessage
  cases message.command with
  | hello => exact follows_hello c link message.payload
  | helloAck =>
      unfold PeerConnection.handleHelloAck
      dsimp only
      split
      · exact ⟨rfl, rfl, rfl, rfl, rfl, fun _ => rfl⟩
      · exact ⟨rfl, rfl, rfl, rfl, rfl, nofun⟩
  | _ => exact ⟨rfl, rfl, rfl, rfl, rfl, fun _ => rfl⟩

theorem opening_absorb
    (state : Link × List Output)
    (events : List Event) :
    (events.foldl absorb state).1.opening =
      state.1.opening := by
  induction events generalizing state with
  | nil => rfl
  | cons event events ih =>
      refine (ih _).trans ?_
      cases event <;> rfl

theorem onMessage_opening
    (c : Crypto)
    (link : Link)
    (message : Message) :
    (link.onMessage c message).1.opening = link.opening :=
  opening_absorb ..

/- Of a connection of which nothing is heard. -/
theorem follows_refl
    (link : Link) :
    link.Follows .stays (link, []) :=
  ⟨rfl, rfl, rfl, rfl, rfl, fun _ => rfl⟩

/- The one lemma about a callback that the rest needs. -/
theorem follows_onCallback
    (c : Crypto)
    (link : Link)
    (callback : Callback) :
    link.Follows (link.fate callback)
      (link.onCallback c callback) := by
  cases callback with
  | opened ok =>
      unfold fate onCallback onOpened
      cases link.opening with
      | none => exact link.follows_refl
      | some stage =>
          cases ok
          · exact ⟨rfl, rfl, rfl, rfl, rfl, nofun⟩
          · cases stage <;>
              exact ⟨rfl, rfl, rfl, rfl, rfl, fun _ => rfl⟩
  | headerRead result =>
      unfold fate onCallback onHeader
      dsimp only
      split
      · exact link.follows_refl
      · cases result with
        | bare command => exact link.follows_onMessage c _
        | body =>
            exact ⟨rfl, rfl, rfl, rfl, rfl, fun _ => rfl⟩
        | _ => exact ⟨rfl, rfl, rfl, rfl, rfl, nofun⟩
  | bodyRead result =>
      unfold fate onCallback onBody
      dsimp only
      split
      · exact link.follows_refl
      · cases result with
        | message message =>
            exact link.follows_onMessage c message
        | _ => exact ⟨rfl, rfl, rfl, rfl, rfl, nofun⟩
  | written ok =>
      unfold fate onCallback onWritten
      dsimp only
      cases link.writing
      · exact link.follows_refl
      · cases ok
        · exact ⟨rfl, rfl, rfl, rfl, rfl, nofun⟩
        · exact ⟨rfl, rfl, rfl, rfl, rfl, fun _ => rfl⟩
  | answered ok =>
      unfold fate onCallback onAnswered
      dsimp only
      by_cases hNone : link.answers = 0
      · rw [if_pos hNone, if_neg (by simp [hNone])]
        exact link.follows_refl
      · rw [if_neg hNone]
        cases ok
        · rw [if_pos (by simp [hNone])]
          exact ⟨rfl, rfl, rfl, rfl, rfl, nofun⟩
        · rw [if_neg (by simp)]
          exact ⟨rfl, rfl, rfl, rfl, rfl, fun _ => rfl⟩
  | timerFired =>
      unfold fate onCallback onTimer
      dsimp only
      cases link.timer with
      | none => exact link.follows_refl
      | some stage =>
          cases link.isConnected
          · exact ⟨rfl, rfl, rfl, rfl, rfl, fun _ => rfl⟩
          · cases link.connection.pingOutstanding
            · cases stage <;>
                exact ⟨rfl, rfl, rfl, rfl, rfl, fun _ => rfl⟩
            · exact ⟨rfl, rfl, rfl, rfl, rfl, nofun⟩

/- What the manager may do to a connection on the way. -/
def sends
    (link : Link)
    (count : Nat) : Link :=
  { link with
    queued := link.queued + count
    writing := link.writing || decide (0 < count) }

def reacted
    (reaction : Reaction)
    (here : Bool)
    (link : Link) : Link :=
  let announced :=
    if link.isConnected then link.sends reaction.announces
    else link
  if here then
    let answered := announced.sends reaction.sends
    if reaction.closes then answered.close else answered
  else
    announced

theorem sends_zero
    (link : Link) :
    link.sends 0 = link := by
  rw [sends, Nat.add_zero, decide_eq_false (Nat.lt_irrefl 0),
    Bool.or_false]

theorem send_sends
    (link : Link)
    (count : Nat) :
    (link.sends count).send = link.sends (count + 1) := by
  rw [sends, sends, send, decide_eq_true (Nat.succ_pos _),
    Bool.or_true]
  rfl

section Reacted

variable (reaction : Reaction) (here : Bool) (link : Link)

/- Nothing but the socket and the writes are touched. -/
theorem reacted_frame :
    (link.reacted reaction here).reports = link.reports ∧
      (link.reacted reaction here).peer = link.peer ∧
      (link.reacted reaction here).redialled =
        link.redialled ∧
      (link.reacted reaction here).endpoint =
        link.endpoint ∧
      (link.reacted reaction here).opening =
        link.opening := by
  unfold reacted
  dsimp only
  split <;> split <;> try split
  all_goals exact ⟨rfl, rfl, rfl, rfl, rfl⟩

theorem reacted_isOpen :
    (link.reacted reaction here).connection.isOpen =
      (link.connection.isOpen &&
        !(here && reaction.closes)) := by
  unfold reacted
  cases here <;> cases reaction.closes <;>
    cases link.isConnected <;>
    simp [sends, close, PeerConnection.close]

end Reacted

theorem reacted_none
    (here : Bool)
    (link : Link) :
    link.reacted .none here = link := by
  unfold reacted Reaction.none
  simp only [sends_zero, ite_self, Bool.false_eq_true,
    if_false]

end Link

------------------------------------------------------------
-- Steps
------------------------------------------------------------

/- What the handling of a message comes to. -/
def Message.reaction
    {σ : Type}
    (handler : NodeHandler σ)
    (node : σ)
    (message : Message) : Reaction :=
  if message.command = .getAddr then
    { sends := if message.payload.isEmpty then 1 else 0
      announces := 0
      closes := !message.payload.isEmpty }
  else if message.command = .addr then
    { sends := 0
      announces := 0
      closes :=
        PeerManager.isMalformed .addr message.payload }
  else
    (handler node message.command message.payload).2

def Fate.reaction
    {σ : Type}
    (handler : NodeHandler σ)
    (node : σ)
    (redialled : Bool) : Fate → Reaction
  | stays | ends => .none
  | connects =>
      { sends := if redialled then 1 else 2
        announces := 0
        closes := false }
  | hands message => message.reaction handler node

namespace PeerManager

variable {σ : Type}

theorem getElem?_update
    (manager : PeerManager σ)
    (index : Nat)
    (change : Link → Link)
    (place : Nat) :
    (manager.update index change).links[place]? =
      manager.links[place]?.map fun link =>
        if place = index then change link else link := by
  rw [update]
  dsimp only
  rw [List.getElem?_modify]
  simp only [eq_comm (a := index)]
  rfl

theorem getElem?_announces
    (manager : PeerManager σ)
    (count place : Nat) :
    ((List.range count).foldl
        (fun manager _ => manager.announceOnce)
        manager).links[place]? =
      manager.links[place]?.map fun link =>
        if link.isConnected then link.sends count
        else link := by
  induction count with
  | zero =>
      simp only [Link.sends_zero, ite_self, Option.map_id']
      rfl
  | succ count ih =>
      rw [List.range_succ, List.foldl_append,
        List.foldl_cons, List.foldl_nil, announceOnce]
      dsimp only
      rw [List.getElem?_map, ih, Option.map_map]
      congr 1
      funext link
      by_cases hConnected : link.isConnected = true
      · have hSent :
            (link.sends count).isConnected = true :=
          hConnected
        simp only [Function.comp_apply, hConnected, hSent,
          if_true, Link.send_sends]
      · simp only [Function.comp_apply, hConnected,
          Bool.false_eq_true, if_false]

theorem getElem?_answers
    (manager : PeerManager σ)
    (index count place : Nat) :
    ((List.range count).foldl
        (fun manager _ => manager.update index .send)
        manager).links[place]? =
      manager.links[place]?.map fun link =>
        if place = index then link.sends count
        else link := by
  induction count with
  | zero =>
      simp only [Link.sends_zero, ite_self, Option.map_id']
      rfl
  | succ count ih =>
      rw [List.range_succ, List.foldl_append,
        List.foldl_cons, List.foldl_nil, getElem?_update,
        ih, Option.map_map]
      congr 1
      funext link
      dsimp only [Function.comp]
      split
      · exact link.send_sends count
      · rfl

theorem getElem?_react
    (manager : PeerManager σ)
    (index : Nat)
    (reaction : Reaction)
    (place : Nat) :
    (manager.react index reaction).links[place]? =
      manager.links[place]?.map
        (.reacted reaction (decide (place = index))) := by
  unfold react
  dsimp only
  split
  · rename_i hCloses
    rw [getElem?_update, getElem?_answers,
      getElem?_announces, Option.map_map, Option.map_map]
    congr 1
    funext link
    by_cases hPlace : place = index <;>
      simp [Link.reacted, hPlace, hCloses]
  · rename_i hCloses
    rw [getElem?_answers, getElem?_announces,
      Option.map_map]
    congr 1
    funext link
    by_cases hPlace : place = index <;>
      simp [Link.reacted, hPlace, hCloses]

/- A closed connection is closed only once. -/
theorem getElem?_malformed
    (config : NetConfig)
    (manager : PeerManager σ)
    (index : Nat)
    (readable : Bool)
    (points : Int)
    (place : Nat) :
    ((manager.scorePeer config index readable points).update
        index .close).links[place]? =
      (manager.update index .close).links[place]? := by
  unfold scorePeer
  split
  · rfl
  · dsimp only
    split
    · rw [getElem?_update, getElem?_update, getElem?_update,
        Option.map_map]
      congr 1
      funext link
      by_cases hPlace : place = index
      · simp only [Function.comp_apply, hPlace, if_true]
        rfl
      · simp only [Function.comp_apply, hPlace, if_false]
    · rfl

theorem getElem?_handle
    (handler : NodeHandler σ)
    (config : NetConfig)
    (manager : PeerManager σ)
    (index : Nat)
    (readable : Bool)
    (message : Message)
    (place : Nat) :
    (manager.handle handler config index readable
          message).links[place]? =
      manager.links[place]?.map
        (.reacted (message.reaction handler manager.node)
          (decide (place = index))) := by
  rw [← getElem?_react]
  unfold handle Message.reaction
  by_cases hAsked : message.command = .getAddr
  · rw [if_pos (Or.inl hAsked), if_pos hAsked, hAsked]
    unfold isMalformed react
    cases message.payload.isEmpty
    · exact getElem?_malformed ..
    · rfl
  · by_cases hTold : message.command = .addr
    · have hOther : ¬Command.addr = .getAddr := nofun
      rw [hTold, if_pos (Or.inr rfl), if_neg hOther,
        if_neg hOther, if_pos rfl]
      unfold react
      dsimp only
      split
      · exact getElem?_malformed ..
      · rfl
    · rw [if_neg (not_or.mpr ⟨hAsked, hTold⟩),
        if_neg hAsked, if_neg hTold]
      dsimp only
      rw [getElem?_react, getElem?_react]

/- All but the node and the connections. -/
def beside
    (manager : PeerManager σ) :
    List Nat × Penalties.Book Endpoint × Nat :=
  (manager.scheduled, manager.book, manager.clock)

theorem beside_times
    {change : PeerManager σ → PeerManager σ}
    (hChange :
      ∀ manager, (change manager).beside = manager.beside)
    (count : Nat)
    (manager : PeerManager σ) :
    ((List.range count).foldl
        (fun manager _ => change manager) manager).beside =
      manager.beside := by
  induction count with
  | zero => rfl
  | succ count ih =>
      rw [List.range_succ, List.foldl_append]
      exact (hChange _).trans ih

theorem beside_react
    (manager : PeerManager σ)
    (index : Nat)
    (reaction : Reaction) :
    (manager.react index reaction).beside =
      manager.beside := by
  unfold react
  dsimp only
  have hSent :=
    (beside_times (fun manager => show
      (manager.update index .send).beside = manager.beside
      from rfl) reaction.sends
      ((List.range reaction.announces).foldl
        (fun manager _ => manager.announceOnce)
        manager)).trans
      (beside_times (fun manager => show
        manager.announceOnce.beside = manager.beside
        from rfl) reaction.announces manager)
  split
  · exact hSent
  · exact hSent

/- The points and checks of a step, as they are made. -/
def malformedCalls
    (manager : PeerManager σ)
    (link : Link)
    (readable : Bool)
    (message : Message) : List (Penalties.Call Endpoint) :=
  if isMalformed message.command message.payload then
    match endpointKey link readable with
    | none => []
    | some key => [.score key 20 manager.clock]
  else
    []

/- The calls on the ban book that one event makes. -/
def calls
    (config : NetConfig)
    (manager : PeerManager σ) :
    NetEvent → List (Penalties.Call Endpoint)
  | .accept remote readable =>
      if manager.links.length ≥
          config.maxInbound + config.maxOutbound then
        []
      else if readable then
        [.check remote manager.clock]
      else
        []
  | .callback index callback readable =>
      match manager.links[index]? with
      | none => []
      | some link =>
          match link.fate callback with
          | .hands message =>
              manager.malformedCalls link readable message
          | _ => []
  | _ => []

theorem beside_malformed
    (config : NetConfig)
    {manager : PeerManager σ}
    {index : Nat}
    {link : Link}
    (hLink : manager.links[index]? = some link)
    (readable : Bool)
    {message : Message}
    (hMalformed :
      isMalformed message.command message.payload = true) :
    (manager.scorePeer config index readable 20).beside =
      (manager.scheduled,
        Penalties.run config.rules manager.book
          (manager.malformedCalls link readable message),
        manager.clock) := by
  unfold scorePeer malformedCalls
  rw [hLink, if_pos hMalformed, Option.bind_some]
  cases endpointKey link readable with
  | none => rfl
  | some key =>
      dsimp only
      split <;> rfl

theorem beside_handle
    (handler : NodeHandler σ)
    (config : NetConfig)
    {manager : PeerManager σ}
    {index : Nat}
    {link : Link}
    (hLink : manager.links[index]? = some link)
    (readable : Bool)
    (message : Message) :
    (manager.handle handler config index readable
          message).beside =
      (manager.scheduled,
        Penalties.run config.rules manager.book
          (manager.malformedCalls link readable message),
        manager.clock) := by
  by_cases hMalformed :
      isMalformed message.command message.payload = true
  · have hScored :
        message.command = .getAddr ∨
          message.command = .addr := by
      revert hMalformed
      cases message.command <;> simp [isMalformed]
    rw [handle, if_pos hScored, if_pos hMalformed]
    exact beside_malformed config hLink readable hMalformed
  · rw [malformedCalls, if_neg hMalformed, handle,
      if_neg hMalformed]
    split
    · split <;> rfl
    · exact beside_react ..

/- A socket is refused, or it becomes a connection. -/
theorem acceptSocket_cases
    (config : NetConfig)
    (manager : PeerManager σ)
    (remote : Endpoint)
    (readable : Bool) :
    ∃ book,
      manager.acceptSocket config remote readable =
          { manager with book } ∨
        manager.acceptSocket config remote readable =
          { manager with
            book
            links :=
              manager.links ++
                [.accept config.params config.localNonce
                  remote] } := by
  unfold acceptSocket
  split
  · exact ⟨manager.book, Or.inl rfl⟩
  · refine ⟨(if readable then
        Penalties.check manager.clock remote manager.book
      else (false, manager.book)).2, ?_⟩
    dsimp only
    split <;> split <;> simp

section Steps

variable (c : Crypto) (handler : NodeHandler σ)
variable (config : NetConfig)
variable (manager : PeerManager σ)

/- The connection is replaced, then its outputs are heard. -/
theorem step_callback
    {index : Nat}
    {link : Link}
    (hLink : manager.links[index]? = some link)
    (callback : Callback)
    (readable : Bool) :
    manager.step c handler config
        (.callback index callback readable) =
      (link.fate callback).outputs.foldl
        (absorb handler config index link readable)
        (manager.update index fun _ =>
          (link.onCallback c callback).1) := by
  rw [step, hLink]
  dsimp only
  rw [(link.follows_onCallback c callback).outputs]

theorem schedule_links
    (link : Link) :
    (manager.schedule link).links = manager.links := by
  unfold schedule
  split
  · rfl
  · split <;> rfl

/- Each connection after a callback of one of them. -/
theorem step_links
    {index : Nat}
    {link : Link}
    (hLink : manager.links[index]? = some link)
    (callback : Callback)
    (readable : Bool)
    (place : Nat) :
    (manager.step c handler config
          (.callback index callback readable)).links[place]? =
      manager.links[place]?.map fun other =>
        .reacted
          ((link.fate callback).reaction handler manager.node
            link.redialled)
          (decide (place = index))
          (if place = index then
            (link.onCallback c callback).1
          else other) := by
  rw [step_callback c handler config manager hLink]
  have hUpdate :=
    manager.getElem?_update index
      (fun _ => (link.onCallback c callback).1) place
  cases link.fate callback with
  | stays =>
      rw [Fate.outputs, List.foldl_nil, hUpdate]
      congr 1
      funext other
      exact (Link.reacted_none _ _).symm
  | ends =>
      rw [Fate.outputs, List.foldl_cons, List.foldl_nil,
        absorb, schedule_links, hUpdate]
      congr 1
      funext other
      exact (Link.reacted_none _ _).symm
  | connects =>
      have hGreeted :
          absorb handler config index link readable
              (manager.update index fun _ =>
                (link.onCallback c callback).1)
              .connected =
            (manager.update index fun _ =>
                (link.onCallback c callback).1).react index
              (Fate.connects.reaction handler manager.node
                link.redialled) := by
        unfold absorb Fate.reaction
        cases link.redialled <;> rfl
      rw [Fate.outputs, List.foldl_cons, List.foldl_nil,
        hGreeted, getElem?_react, hUpdate, Option.map_map]
      rfl
  | hands message =>
      rw [Fate.outputs, List.foldl_cons, List.foldl_nil,
        absorb, getElem?_handle, hUpdate, Option.map_map]
      rfl

/- What is scheduled, booked and told by the clock. -/
theorem step_beside
    {index : Nat}
    {link : Link}
    (hLink : manager.links[index]? = some link)
    (callback : Callback)
    (readable : Bool) :
    (manager.step c handler config
          (.callback index callback readable)).beside =
      (manager.scheduled ++
          link.redials (link.fate callback),
        Penalties.run config.rules manager.book
          (manager.calls config
            (.callback index callback readable)),
        manager.clock) := by
  rw [step_callback c handler config manager hLink, calls,
    hLink]
  dsimp only
  have hSame :
      manager.beside =
        (manager.scheduled ++ [], manager.book,
          manager.clock) :=
    Prod.ext (List.append_nil _).symm rfl
  cases link.fate callback with
  | stays => exact hSame
  | ends =>
      rw [Fate.outputs, List.foldl_cons, List.foldl_nil,
        absorb]
      unfold schedule Link.redials
      cases link.peer with
      | none => exact hSame
      | some peer =>
          cases link.redialled
          · rfl
          · exact hSame
  | connects =>
      rw [Fate.outputs, List.foldl_cons, List.foldl_nil,
        absorb]
      split <;> exact hSame
  | hands message =>
      have hFollows := link.follows_onCallback c callback
      have hAfter :
          (manager.update index fun _ =>
                (link.onCallback c callback).1).links[index]? =
            some (link.onCallback c callback).1 := by
        rw [getElem?_update, hLink, Option.map_some,
          if_pos rfl]
      rw [Fate.outputs, List.foldl_cons, List.foldl_nil,
        absorb, beside_handle handler config hAfter]
      unfold malformedCalls endpointKey
      rw [hFollows.peer, hFollows.endpoint]
      exact Prod.ext (List.append_nil _).symm rfl

/- The book is kept by its calls, whatever the event. -/
theorem step_book
    (event : NetEvent) :
    (manager.step c handler config event).book =
      Penalties.run config.rules manager.book
        (manager.calls config event) := by
  cases event with
  | accept remote readable =>
      rw [step, acceptSocket, calls]
      split
      · rfl
      · cases readable
        · rfl
        · dsimp only
          rw [if_pos rfl, if_pos rfl]
          split <;> rfl
  | callback index callback readable =>
      cases hLink : manager.links[index]? with
      | none =>
          rw [step, calls, hLink]
          rfl
      | some link =>
          exact congrArg (fun rest => rest.2.1)
            (step_beside c handler config manager hLink
              callback readable)
  | redial place =>
      rw [step, redialPeer]
      split
      · rfl
      · split <;> rfl
  | announce => rfl
  | tick seconds => rfl

end Steps

end PeerManager

end Net

end Amarian
