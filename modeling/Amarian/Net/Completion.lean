import Amarian.Net.Connection

/-
  How often a connection completes its handshake.

  Key definitions include:
    * `Handshake.Call`
    * `Session.completions`
    * `Session.GreetedOnce`
    * `Handshake.FailedForGood`

  Key theorems include:
    * `Session.progress_run`
    * `Handshake.failed_performs`
    * `Session.completes_once`
-/

------------------------------------------------------------
-- Calls
------------------------------------------------------------

namespace Amarian

namespace Net

namespace Handshake

def onReceiveHello
    (handshake : Handshake) : Handshake :=
  if handshake.state = .awaitingSendHello then
    { handshake with state := .awaitingReceiveHelloAck }
  else if handshake.state = .awaitingReceiveHello then
    { handshake with state := .awaitingReceiveHelloAck }
  else
    handshake

/- Nothing but the acknowledgement of the peer is awaited. -/
def onSendHelloAck
    (handshake : Handshake) : Handshake :=
  handshake

/- The calls on the handshake, in any order. -/
inductive Call where
  | receiveHello (hello : HelloPayload)
  | onReceiveHello
  | onSendHello
  | onSendHelloAck
  | onReceiveHelloAck

def perform
    (handshake : Handshake) : Call → Handshake
  | .receiveHello hello => (handshake.receiveHello hello).2
  | .onReceiveHello => handshake.onReceiveHello
  | .onSendHello => handshake.onSendHello
  | .onSendHelloAck => handshake.onSendHelloAck
  | .onReceiveHelloAck => handshake.onReceiveHelloAck.2

/- A handshake after the calls. -/
def performs
    (handshake : Handshake)
    (calls : List Call) : Handshake :=
  calls.foldl perform handshake

/- A greeting from another node of the network. -/
def Accepts
    (handshake : Handshake)
    (hello : HelloPayload) : Prop :=
  hello.chainId = handshake.params.chainId ∧
    hello.nonce ≠ handshake.localNonce ∧
    1 ≤ hello.protocolVersion

/- No such greeting comes once the handshake has failed. -/
def FailedForGood
    (handshake : Handshake)
    (calls : List Call) : Prop :=
  ∀ before hello after,
    calls = before ++ .receiveHello hello :: after →
      (handshake.performs before).state = .failed →
        ¬(handshake.performs before).Accepts hello

/- The state of before plays no part in it. -/
theorem receiveHello_cases
    (handshake : Handshake)
    (hello : HelloPayload) :
    (handshake.Accepts hello ∧
        (handshake.receiveHello hello).1 = true ∧
        (handshake.receiveHello hello).2.state =
          .awaitingReceiveHelloAck) ∨
      ((handshake.receiveHello hello).1 = false ∧
        (handshake.receiveHello hello).2.state =
          .failed) := by
  unfold receiveHello
  split
  · exact Or.inr ⟨rfl, rfl⟩
  rename_i hChain
  split
  · exact Or.inr ⟨rfl, rfl⟩
  rename_i hNonce
  split
  · exact Or.inr ⟨rfl, rfl⟩
  rename_i hVersion
  exact Or.inl
    ⟨⟨not_not.mp hChain, hNonce, UInt32.not_lt.mp hVersion⟩,
      rfl, rfl⟩

/- Only an accepted greeting leaves the failed state. -/
theorem failed_perform
    {handshake : Handshake}
    (hFailed : handshake.state = .failed)
    {call : Call}
    (hCall :
      ∀ hello,
        call = .receiveHello hello →
          ¬handshake.Accepts hello) :
    (handshake.perform call).state = .failed := by
  cases call with
  | receiveHello hello =>
      rcases receiveHello_cases handshake hello with
        ⟨hAccepts, -⟩ | ⟨-, hState⟩
      · exact absurd hAccepts (hCall hello rfl)
      · exact hState
  | onReceiveHello =>
      rw [perform, onReceiveHello, hFailed]
      exact hFailed
  | onSendHello =>
      rw [perform, onSendHello, hFailed]
      exact hFailed
  | onSendHelloAck => exact hFailed
  | onReceiveHelloAck =>
      rw [perform, onReceiveHelloAck, if_pos (by
        rw [hFailed]
        exact nofun)]
      rfl

theorem performs_append
    (handshake : Handshake)
    (calls later : List Call) :
    handshake.performs (calls ++ later) =
      (handshake.performs calls).performs later :=
  List.foldl_append ..

/- By induction on the calls that come after the failure. -/
theorem failed_performs
    {handshake : Handshake}
    {before after : List Call}
    (hGood : handshake.FailedForGood (before ++ after))
    (hFailed :
      (handshake.performs before).state = .failed) :
    (handshake.performs (before ++ after)).state =
      .failed := by
  induction after generalizing before with
  | nil =>
      rw [List.append_nil]
      exact hFailed
  | cons call after ih =>
      have hSplit :
          before ++ call :: after =
            (before ++ [call]) ++ after := by
        rw [List.append_assoc]
        rfl
      rw [hSplit]
      refine ih (hSplit ▸ hGood) ?_
      rw [performs_append]
      refine failed_perform hFailed ?_
      rintro hello rfl
      exact hGood before hello after rfl hFailed

end Handshake

------------------------------------------------------------
-- Completions
------------------------------------------------------------

/- Whom `on_connected` is told about. -/
def Event.completion : Event → Option PeerHello
  | .connectedTo hello => some hello
  | _ => none

/- Where a connection is, and whom it has reported. -/
inductive Progress
    (connection : PeerConnection) :
    List PeerHello → Prop where
  | greeting
      (hState : connection.handshake.state ≠ .complete) :
      Progress connection []
  | completed
      (hState :
        connection.handshake.state = .complete ∨
          connection.isOpen = false) :
      Progress connection [connection.peerHello]

theorem Progress.close
    {connection : PeerConnection}
    {fired : List PeerHello}
    (hProgress : Progress connection fired) :
    Progress connection.close fired := by
  cases hProgress with
  | greeting hState => exact .greeting hState
  | completed _ => exact .completed (Or.inr rfl)

namespace Session

variable {σ : Type}

section Runs

variable (c : Crypto) (handler : MessageHandler σ)

/- The completions that one message reports. -/
def connects
    (session : Session σ)
    (message : Message) : List PeerHello :=
  if session.connection.isOpen then
    (session.connection.handleMessage c
      message).2.filterMap Event.completion
  else
    []

/- The calls of `on_connected` in a run. -/
def completions
    (session : Session σ) : List Message → List PeerHello
  | [] => []
  | message :: messages =>
      session.connects c message ++
        completions (session.receive c handler message)
          messages

/- No greeting is accepted once the handshake is complete. -/
def GreetedOnce
    (session : Session σ)
    (messages : List Message) : Prop :=
  ∀ before message after,
    messages = before ++ message :: after →
      (session.run c handler
            before).connection.handshake.state =
          .complete →
        ¬(session.run c handler before).AcceptsHello message

end Runs

------------------------------------------------------------
-- One Message
------------------------------------------------------------

section Steps

variable {c : Crypto} {handler : MessageHandler σ}

theorem deliver_connection
    (session : Session σ)
    (event : Event) :
    (session.deliver handler event).connection =
        session.connection ∨
      (session.deliver handler event).connection =
        session.connection.close := by
  unfold deliver
  split
  · dsimp only
    split
    · exact Or.inl rfl
    · exact Or.inr rfl
  · exact Or.inl rfl

/- All that the handlers do to a connection is close it. -/
theorem deliver_progress
    {session : Session σ}
    {fired : List PeerHello}
    (hProgress : Progress session.connection fired)
    (events : List Event) :
    Progress
      (events.foldl (deliver handler) session).connection
      fired := by
  induction events generalizing session with
  | nil => exact hProgress
  | cons event events ih =>
      refine ih ?_
      rcases @deliver_connection _ handler session event with
        hSame | hClosed
      · rw [hSame]
        exact hProgress
      · rw [hClosed]
        exact hProgress.close

theorem handleHello_progress
    {connection : PeerConnection}
    {payload : ByteVec}
    {fired : List PeerHello}
    (hOpen : connection.isOpen = true)
    (hProgress : Progress connection fired)
    (hOnce :
      connection.handshake.state = .complete →
        ∀ hello,
          (HelloPayload.deserialize 256
                (.ofList payload)).1 =
              some hello →
            (connection.handshake.receiveHello hello).1 ≠
              true) :
    Progress (connection.handleHello c payload).1
      (fired ++
        (connection.handleHello c payload).2.filterMap
          Event.completion) := by
  unfold PeerConnection.handleHello
  split
  · rw [List.filterMap_cons_none rfl, List.filterMap_nil,
      List.append_nil]
    exact hProgress.close
  rename_i hello hDecoded
  dsimp only
  rcases connection.handshake.receiveHello_cases hello with
    ⟨-, hAnswered, hState⟩ | ⟨hRefused, hState⟩
  · rw [if_pos hAnswered, List.filterMap_cons_none rfl,
      List.filterMap_nil, List.append_nil]
    cases hProgress with
    | greeting _ =>
        refine .greeting ?_
        rw [hState]
        exact nofun
    | completed hDone =>
        rcases hDone with hComplete | hClosed
        · exact absurd hAnswered
            (hOnce hComplete hello hDecoded)
        · cases hOpen.symm.trans hClosed
  · rw [hRefused, if_neg Bool.false_ne_true,
      List.filterMap_cons_none rfl, List.filterMap_nil,
      List.append_nil]
    cases hProgress with
    | greeting _ =>
        refine .greeting ?_
        change (connection.handshake.receiveHello
          hello).2.state ≠ _
        rw [hState]
        exact nofun
    | completed _ => exact .completed (Or.inr rfl)

theorem handleHelloAck_progress
    {connection : PeerConnection}
    {fired : List PeerHello}
    (hOpen : connection.isOpen = true)
    (hProgress : Progress connection fired) :
    Progress connection.handleHelloAck.1
      (fired ++
        connection.handleHelloAck.2.filterMap
          Event.completion) := by
  unfold PeerConnection.handleHelloAck
    Handshake.onReceiveHelloAck
  by_cases hExpected :
      connection.handshake.state = .awaitingReceiveHelloAck
  · rw [if_neg (not_not_intro hExpected)]
    cases hProgress with
    | greeting _ => exact .completed (Or.inl rfl)
    | completed hDone =>
        rcases hDone with hComplete | hClosed
        · cases hComplete.symm.trans hExpected
        · cases hOpen.symm.trans hClosed
  · rw [if_pos hExpected]
    change Progress _ (fired ++ [])
    rw [List.append_nil]
    cases hProgress with
    | greeting _ => exact .greeting nofun
    | completed _ => exact .completed (Or.inr rfl)

theorem handleMessage_progress
    {connection : PeerConnection}
    {message : Message}
    {fired : List PeerHello}
    (hOpen : connection.isOpen = true)
    (hProgress : Progress connection fired)
    (hOnce :
      connection.handshake.state = .complete →
        message.command = .hello →
          ∀ hello,
            (HelloPayload.deserialize 256
                  (.ofList message.payload)).1 =
                some hello →
              (connection.handshake.receiveHello hello).1 ≠
                true) :
    Progress (connection.handleMessage c message).1
      (fired ++
        (connection.handleMessage c message).2.filterMap
          Event.completion) := by
  unfold PeerConnection.handleMessage
  split
  case h_1 hHello =>
    exact handleHello_progress hOpen hProgress
      fun hComplete => hOnce hComplete hHello
  case h_2 => exact handleHelloAck_progress hOpen hProgress
  case h_3 =>
    rw [List.filterMap_cons_none rfl, List.filterMap_nil,
      List.append_nil]
    exact hProgress
  case h_4 =>
    rw [List.filterMap_cons_none rfl, List.filterMap_nil,
      List.append_nil]
    cases hProgress with
    | greeting hState => exact .greeting hState
    | completed hDone => exact .completed hDone

/- One message takes a connection one step on, if any. -/
theorem receive_progress
    {session : Session σ}
    {message : Message}
    {fired : List PeerHello}
    (hProgress : Progress session.connection fired)
    (hOnce :
      session.connection.handshake.state = .complete →
        ¬session.AcceptsHello message) :
    Progress (session.receive c handler message).connection
      (fired ++ session.connects c message) := by
  rw [receive, connects]
  by_cases hOpen : session.connection.isOpen = true
  · rw [if_pos hOpen, if_pos hOpen]
    refine deliver_progress ?_ _
    refine handleMessage_progress hOpen hProgress ?_
    intro hComplete hHello hello hDecoded hAnswered
    exact hOnce hComplete
      ⟨hOpen, hHello, hello, hDecoded, hAnswered⟩
  · rw [if_neg hOpen, if_neg hOpen, List.append_nil]
    exact hProgress

end Steps

------------------------------------------------------------
-- Many Messages
------------------------------------------------------------

section Runs

variable {c : Crypto} {handler : MessageHandler σ}
variable {session : Session σ}

theorem completions_append
    (before after : List Message) :
    session.completions c handler (before ++ after) =
      session.completions c handler before ++
        (session.run c handler before).completions c handler
          after := by
  induction before generalizing session with
  | nil => rfl
  | cons message before ih =>
      rw [List.cons_append, completions, ih, completions,
        List.append_assoc]
      rfl

/- By induction on the messages, from the last one. -/
theorem progress_run
    (hStart :
      session.connection.handshake.state ≠ .complete)
    {messages : List Message}
    (hOnce : session.GreetedOnce c handler messages) :
    Progress (session.run c handler messages).connection
      (session.completions c handler messages) := by
  induction messages using List.reverseRecOn with
  | nil => exact .greeting hStart
  | append_singleton messages message ih =>
      have hBefore : session.GreetedOnce c handler messages := by
        rintro before other after rfl
        exact hOnce before other (after ++ [message])
          (List.append_assoc ..)
      have hHere := hOnce messages message [] rfl
      rw [run_concat, completions_append, completions,
        completions, List.append_nil]
      exact receive_progress (ih hBefore) hHere

/-
  Where no second greeting is accepted, a connection reports
  one completion and keeps who it was; and a handshake that
  has failed does not complete.
-/
theorem completes_once
    (c : Crypto)
    (handler : MessageHandler σ)
    (params : ChainParams)
    (nonce : UInt64)
    (inbound : Bool)
    (node : σ)
    {messages : List Message}
    (hOnce :
      GreetedOnce c handler
        ⟨.start params nonce inbound, node⟩ messages)
    {handshake : Handshake}
    {calls : List Handshake.Call}
    (hFailed : handshake.FailedForGood calls) :
    let session : Session σ :=
      ⟨.start params nonce inbound, node⟩
    (session.completions c handler messages).length ≤ 1 ∧
      (∀ before after,
        messages = before ++ after →
          ∀ hello ∈ session.completions c handler before,
            (session.run c handler
                  messages).connection.peerHello =
              hello) ∧
      ∀ before after,
        calls = before ++ after →
          (handshake.performs before).state = .failed →
            (handshake.performs calls).state ≠
              .complete := by
  intro session
  have hStart :
      session.connection.handshake.state ≠ .complete := by
    cases inbound
    · exact nofun
    · exact nofun
  have hProgress := progress_run hStart hOnce
  refine ⟨?_, ?_, ?_⟩
  · generalize hFired :
      session.completions c handler messages = fired
      at hProgress
    cases hProgress with
    | greeting _ => exact Nat.zero_le 1
    | completed _ => exact Nat.le_refl 1
  · rintro before after rfl hello hHello
    rw [completions_append] at hProgress
    generalize hFired :
      session.completions c handler before ++
        (session.run c handler before).completions c handler
          after =
      fired at hProgress
    cases hProgress with
    | greeting _ =>
        rw [(List.append_eq_nil_iff.mp hFired).1] at hHello
        cases hHello
    | completed _ =>
        have hMember : hello ∈
            session.completions c handler before ++
              (session.run c handler before).completions c
                handler after :=
          List.mem_append_left _ hHello
        rw [hFired] at hMember
        exact (List.mem_singleton.mp hMember).symm
  · rintro before after rfl hBefore
    rw [Handshake.failed_performs hFailed hBefore]
    exact nofun

end Runs

end Session

------------------------------------------------------------
-- Samples
------------------------------------------------------------

namespace Sample

/- The greeting of a node that goes by a number. -/
def greetingOf
    (nonce : UInt64) : Message :=
  { command := .hello
    payload :=
      (Handshake.create regtestParams
        nonce).buildHello.serialize }

def acknowledgement : Message :=
  { command := .helloAck, payload := [] }

/- A node that ignores every message. -/
def noHandler : MessageHandler Unit :=
  fun node _ _ => (node, true)

def waiting : Session Unit :=
  { connection := .start regtestParams 1 true, node := () }

/- A call that is refused, then a greeting and its answer. -/
def revivedCalls : List Handshake.Call :=
  [.onReceiveHelloAck,
    .receiveHello
      (Handshake.create regtestParams 2).buildHello,
    .onReceiveHelloAck]

/- The same peer completes twice, under two identities. -/
theorem completed_twice :
    let messages :=
      [greetingOf 2, acknowledgement, greetingOf 3,
        acknowledgement]
    let handshake := Handshake.create regtestParams 1
    (waiting.completions .reference noHandler
          messages).map PeerHello.nonce =
        [2, 3] ∧
      (waiting.run .reference noHandler
            (messages.take 2)).connection.peerHello ≠
        (waiting.run .reference noHandler
            messages).connection.peerHello ∧
      (handshake.performs (revivedCalls.take 1)).state =
        .failed ∧
      (handshake.performs revivedCalls).state =
        .complete := by
  decide +kernel

theorem completed_here :
    (waiting.completions .reference noHandler
          [greetingOf 2, acknowledgement]).length ≤
        1 ∧
      (∀ before after,
        [greetingOf 2, acknowledgement] = before ++ after →
          ∀ hello ∈
              waiting.completions .reference noHandler
                before,
            (waiting.run .reference noHandler
                  [greetingOf 2,
                    acknowledgement]).connection.peerHello =
              hello) ∧
      ∀ before after,
        [Handshake.Call.onReceiveHelloAck] =
            before ++ after →
          ((Handshake.create regtestParams 1).performs
                before).state =
              .failed →
            ((Handshake.create regtestParams 1).performs
                  [.onReceiveHelloAck]).state ≠
              .complete := by
  refine Session.completes_once .reference noHandler
    regtestParams 1 true () ?_ ?_
  · rintro before message after hSplit hComplete -
    have hEarly : ∀ count < 2,
        (Session.run .reference noHandler
              waiting
              ([greetingOf 2, acknowledgement].take
                count)).connection.handshake.state ≠
          .complete := by
      decide +kernel
    have hLength := congrArg List.length hSplit
    simp only [List.length_append, List.length_cons,
      List.length_nil] at hLength
    refine hEarly before.length (by omega) ?_
    rw [hSplit, List.take_left']
    · exact hComplete
    · rfl
  · intro before hello after hSplit
    have hMember :
        Handshake.Call.receiveHello hello ∈
          [Handshake.Call.onReceiveHelloAck] := by
      rw [hSplit]
      exact List.mem_append_right _ List.mem_cons_self
    cases List.mem_singleton.mp hMember

end Sample

end Net

end Amarian
