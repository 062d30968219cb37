import Amarian.Lib.Runs
import Amarian.Net.Fates

/-
  Whom the points are held against.

  The book of the manager is kept by endpoint, which is an
  address and a port.  Beside it stands the book that is kept
  by address alone.

  Key definitions include:
    * `PeerManager.history`
    * `addressBook`
    * `PeerManager.BansKept`

  Key theorems include:
    * `PeerManager.book_run`
    * `PeerManager.bans_kept`
-/

------------------------------------------------------------
-- Histories
------------------------------------------------------------

namespace Amarian

namespace Net

/- As if the endpoint could always be read. -/
def NetEvent.heard : NetEvent → NetEvent
  | .accept remote _ => .accept remote true
  | .callback index came _ => .callback index came true
  | event => event

/- The same points, held against addresses. -/
def addressBook
    (config : NetConfig)
    (calls : List (Penalties.Call Endpoint)) :
    Penalties.Book String :=
  Penalties.run config.rules .empty
    (calls.map (.rename Endpoint.host))

/- An address with points is met under one port only. -/
def OnePort
    (calls : List (Penalties.Call Endpoint)) : Prop :=
  ∀ key points now,
    .score key points now ∈ calls →
      ∀ other ∈ calls,
        other.key.host = key.host → other.key = key

namespace PeerManager

variable {σ : Type}

/-
  The endpoint can be read where it is needed: when a socket
  is checked, and when an inbound peer is scored.
-/
def Readable
    (config : NetConfig)
    (manager : PeerManager σ) : NetEvent → Prop
  | .accept _ readable =>
      manager.links.length <
          config.maxInbound + config.maxOutbound →
        readable = true
  | .callback index callback readable =>
      ∀ link message,
        manager.links[index]? = some link →
          link.peer = none →
            link.fate callback = .hands message →
              isMalformed message.command
                    message.payload =
                  true →
                readable = true
  | _ => True

section Histories

variable (c : Crypto) (handler : NodeHandler σ)
variable (config : NetConfig)

/- All the points and checks that a run gives rise to. -/
def history :
    PeerManager σ → List NetEvent →
      List (Penalties.Call Endpoint)
  | _, [] => []
  | manager, event :: events =>
      manager.calls config event.heard ++
        history (manager.step c handler config event) events

/- Points add up, and who has too many is refused. -/
structure BansKept
    (node : σ)
    (events : List NetEvent) : Prop where
  accumulate :
    ∀ before after,
      events = before ++ after →
        ∀ key points now,
          .score key points now ∈
              history c handler config (start config node)
                before →
            ((start config node).run c handler config
                    before).book.points
                key =
              (addressBook config
                    (history c handler config
                      (start config node)
                      before)).points
                key.host
  refused :
    ∀ before event middle remote readable after,
      events =
          (before ++ event :: middle) ++
            .accept remote readable :: after →
        ∀ key points now,
          .score key points now ∈
              ((start config node).run c handler config
                    before).calls
                config event.heard →
            config.banThreshold ≤
                (addressBook config
                      (history c handler config
                        (start config node)
                        (before ++ [event]))).points
                  key.host →
              remote.host = key.host →
                ((start config node).run c handler config
                        (before ++ event :: middle)).clock <
                    now + config.banDuration →
                  (((start config node).run c handler config
                            (before ++
                              event :: middle)).step
                        c handler config
                        (.accept remote readable)).links =
                    ((start config node).run c handler config
                      (before ++ event :: middle)).links

theorem history_append
    (manager : PeerManager σ)
    (events later : List NetEvent) :
    history c handler config manager (events ++ later) =
      history c handler config manager events ++
        history c handler config
          (manager.run c handler config events) later := by
  induction events generalizing manager with
  | nil => rfl
  | cons event events ih =>
      rw [List.cons_append, history, history, ih,
        List.append_assoc]
      rfl

theorem calls_heard
    {manager : PeerManager σ}
    {event : NetEvent}
    (hReadable : manager.Readable config event) :
    manager.calls config event =
      manager.calls config event.heard := by
  cases event with
  | accept remote readable =>
      rw [NetEvent.heard, calls, calls]
      split
      · rfl
      · rename_i hFree
        rw [hReadable (Nat.not_le.mp hFree)]
  | callback index callback readable =>
      rw [NetEvent.heard, calls, calls]
      cases hLink : manager.links[index]? with
      | none => rfl
      | some link =>
          dsimp only
          cases hFate : link.fate callback with
          | hands message =>
              dsimp only
              unfold malformedCalls endpointKey
              by_cases hMalformed :
                  isMalformed message.command
                      message.payload =
                    true
              · cases hPeer : link.peer with
                | none =>
                    rw [hReadable link message hLink hPeer hFate
                      hMalformed]
                | some peer => rfl
              · rw [if_neg hMalformed, if_neg hMalformed]
          | _ => rfl
  | _ => rfl

theorem readable_heard
    (manager : PeerManager σ)
    (event : NetEvent) :
    manager.Readable config event.heard := by
  cases event with
  | accept remote readable => exact fun _ => rfl
  | callback index callback readable =>
      exact fun _ _ _ _ _ _ => rfl
  | _ => exact trivial

/- By induction on the events. -/
theorem book_run
    {manager : PeerManager σ}
    {events : List NetEvent}
    (hReadable :
      Runs.Along (step c handler config) (Readable config)
        manager events) :
    (manager.run c handler config events).book =
      Penalties.run config.rules manager.book
        (history c handler config manager events) := by
  induction events generalizing manager with
  | nil => rfl
  | cons event events ih =>
      rw [Runs.along_cons] at hReadable
      rw [history, Penalties.run_append,
        ← calls_heard config hReadable.1,
        ← step_book c handler config manager event]
      exact ih hReadable.2

------------------------------------------------------------
-- Clocks
------------------------------------------------------------

theorem clock_step
    (manager : PeerManager σ)
    (event : NetEvent) :
    manager.clock ≤
      (manager.step c handler config event).clock := by
  cases event with
  | accept remote readable =>
      rcases manager.acceptSocket_cases config remote
          readable with ⟨book, hBook | hBook⟩
      · rw [step, hBook]
      · rw [step, hBook]
  | callback index callback readable =>
      cases hLink : manager.links[index]? with
      | none =>
          rw [step, hLink]
      | some link =>
          have hClock :
              (manager.step c handler config
                    (.callback index callback
                      readable)).clock =
                manager.clock :=
            congrArg (fun rest => rest.2.2)
              (step_beside c handler config manager hLink
                callback readable)
          rw [hClock]
  | redial place =>
      rw [step, redialPeer]
      split
      · exact Nat.le_refl _
      · split <;> exact Nat.le_refl _
  | announce => exact Nat.le_refl _
  | tick seconds => exact Nat.le_add_right ..

theorem clock_run
    (manager : PeerManager σ)
    (events : List NetEvent) :
    manager.clock ≤
      (manager.run c handler config events).clock := by
  induction events generalizing manager with
  | nil => exact Nat.le_refl _
  | cons event events ih =>
      exact (clock_step c handler config manager event).trans
        (ih _)

/- A step calls the book once at most, at its own time. -/
theorem calls_cases
    (manager : PeerManager σ)
    (event : NetEvent) :
    manager.calls config event = [] ∨
      ∃ call,
        manager.calls config event = [call] ∧
          call.now = manager.clock := by
  unfold calls
  split
  · split
    · exact Or.inl rfl
    · split
      · exact Or.inr ⟨_, rfl, rfl⟩
      · exact Or.inl rfl
  · split
    · exact Or.inl rfl
    · split
      · unfold malformedCalls
        split
        · split
          · exact Or.inl rfl
          · exact Or.inr ⟨_, rfl, rfl⟩
        · exact Or.inl rfl
      · exact Or.inl rfl
  · exact Or.inl rfl

theorem calls_now
    {manager : PeerManager σ}
    {event : NetEvent}
    {call : Penalties.Call Endpoint}
    (hCall : call ∈ manager.calls config event) :
    call.now = manager.clock := by
  rcases manager.calls_cases config event with
    hNone | ⟨only, hOnly, hNow⟩
  · rw [hNone] at hCall
    cases hCall
  · rw [hOnly, List.mem_singleton] at hCall
    rw [hCall]
    exact hNow

/- By induction on the events. -/
theorem history_now
    (manager : PeerManager σ)
    (events : List NetEvent) :
    ∀ call ∈ history c handler config manager events,
      manager.clock ≤ call.now ∧
        call.now ≤
          (manager.run c handler config events).clock := by
  induction events generalizing manager with
  | nil => exact fun call hCall => nomatch hCall
  | cons event events ih =>
      intro call hCall
      have hStep := clock_step c handler config manager event
      rcases List.mem_append.mp hCall with hHere | hLater
      · rw [calls_now config hHere]
        exact ⟨Nat.le_refl _,
          hStep.trans (clock_run c handler config _ events)⟩
      · have hBounds := ih _ call hLater
        exact ⟨hStep.trans hBounds.1, hBounds.2⟩

------------------------------------------------------------
-- Bans
------------------------------------------------------------

section OnePorts

variable {node : σ} {events : List NetEvent}

variable (hOne :
  OnePort
    (history c handler config (start config node) events))

variable (hReadable :
  Runs.Along (step c handler config) (Readable config)
    (start config node) events)

include hOne hReadable

/- What the book says of endpoints, it says of addresses. -/
theorem renames_history
    {before after : List NetEvent}
    (hSplit : events = before ++ after) :
    Penalties.Renames Endpoint.host
      { key |
        ∃ points now,
          .score key points now ∈
            history c handler config (start config node)
              events }
      { key |
        ∃ call ∈
            history c handler config (start config node)
              events,
          call.key = key }
      ((start config node).run c handler config before).book
      (addressBook config
        (history c handler config (start config node)
          before)) := by
  rw [hSplit] at hReadable
  rw [book_run c handler config hReadable.append_left]
  refine Penalties.renames_run ?_
    (Penalties.renames_empty ..) ?_
  · rintro key ⟨points, now, hScore⟩ other
      ⟨call, hCall, rfl⟩ hHost
    exact hOne key points now hScore call hCall hHost
  · intro call hCall
    have hMember :
        call ∈
          history c handler config (start config node)
            events := by
      rw [hSplit, history_append]
      exact List.mem_append_left _ hCall
    refine ⟨⟨call, hMember, rfl⟩, ?_⟩
    rintro key points now rfl
    exact ⟨points, now, hMember⟩

/- The score that bans is the only call of its step. -/
theorem banned_after
    {before after : List NetEvent}
    {event : NetEvent}
    (hSplit : events = (before ++ [event]) ++ after)
    {key : Endpoint}
    {points : Int}
    {now : Nat}
    (hScore :
      .score key points now ∈
        ((start config node).run c handler config
              before).calls
          config event.heard)
    (hReached :
      config.banThreshold ≤
        (addressBook config
              (history c handler config (start config node)
                (before ++ [event]))).points
          key.host) :
    ((start config node).run c handler config
            (before ++ [event])).book.bans
        key =
      some (now + config.banDuration) := by
  have hMember :
      .score key points now ∈
        history c handler config (start config node)
          events := by
    rw [hSplit, history_append, history_append]
    exact List.mem_append_left _ (List.mem_append_right _
      (List.mem_append_left _ hScore))
  have hRenames :=
    renames_history c handler config hOne hReadable hSplit
  have hPoints :=
    hRenames.points key ⟨_, hMember, rfl⟩
  rw [hPoints] at hReached
  have hStep :
      (start config node).run c handler config
          (before ++ [event]) =
        ((start config node).run c handler config
              before).step
          c handler config event :=
    List.foldl_concat ..
  have hGood :
      ((start config node).run c handler config
            before).Readable
        config event :=
    hReadable before event after
      (hSplit.trans (List.append_cons ..).symm)
  rw [hStep, step_book, calls_heard config hGood]
    at hReached ⊢
  rcases calls_cases config
      ((start config node).run c handler config before)
      event.heard with hNone | ⟨call, hOnly, -⟩
  · rw [hNone] at hScore
    cases hScore
  · rw [hOnly, List.mem_singleton] at hScore
    rw [hOnly, ← hScore] at hReached ⊢
    exact Penalties.score_banned hReached

theorem refused_while_banned
    {before middle after : List NetEvent}
    {event : NetEvent}
    {remote : Endpoint}
    {readable : Bool}
    (hSplit :
      events =
        (before ++ event :: middle) ++
          .accept remote readable :: after)
    {key : Endpoint}
    {points : Int}
    {now : Nat}
    (hScore :
      .score key points now ∈
        ((start config node).run c handler config
              before).calls
          config event.heard)
    (hReached :
      config.banThreshold ≤
        (addressBook config
              (history c handler config (start config node)
                (before ++ [event]))).points
          key.host)
    (hHost : remote.host = key.host)
    (hClock :
      ((start config node).run c handler config
            (before ++ event :: middle)).clock <
        now + config.banDuration) :
    (((start config node).run c handler config
              (before ++ event :: middle)).acceptSocket
        config remote readable).links =
      ((start config node).run c handler config
        (before ++ event :: middle)).links := by
  have hFirst :
      events =
        (before ++ [event]) ++
          (middle ++ .accept remote readable :: after) := by
    rw [hSplit]
    simp only [List.append_assoc, List.cons_append,
      List.nil_append]
  have hBanned :=
    banned_after c handler config hOne hReadable hFirst hScore
      hReached
  have hStep :
      (start config node).run c handler config
          (before ++ [event]) =
        ((start config node).run c handler config
              before).step
          c handler config event :=
    List.foldl_concat ..
  have hMiddle :
      (start config node).run c handler config
          (before ++ event :: middle) =
        ((start config node).run c handler config
              (before ++ [event])).run
          c handler config middle := by
    rw [List.append_cons]
    exact List.foldl_append ..
  have hAlong :
      Runs.Along (step c handler config) (Readable config)
        ((start config node).run c handler config
          (before ++ [event])) middle := by
    rw [hFirst] at hReadable
    exact hReadable.append_right.append_left
  have hBook := book_run c handler config hAlong
  -- The ban is still there when the socket comes.
  have hStill :
      ∃ later,
        ((start config node).run c handler config
                (before ++ event :: middle)).book.bans
            key =
          some later ∧
        now + config.banDuration ≤ later := by
    rw [hMiddle, hBook]
    refine Penalties.banned_run ⟨_, hBanned, Nat.le_refl _⟩ ?_
    intro call hCall
    have hTimes :=
      history_now c handler config _ middle call hCall
    have hNow := calls_now config hScore
    have hLater := clock_step c handler config
      ((start config node).run c handler config before) event
    rw [← hStep, ← hNow] at hLater
    rw [← hMiddle] at hTimes
    refine ⟨Nat.add_le_add_right (hLater.trans hTimes.1) _,
      hTimes.2.trans_lt hClock⟩
  rcases hStill with ⟨later, hBan, hLater⟩
  unfold acceptSocket
  split
  · rfl
  rename_i hFree
  have hRead : readable = true :=
    hReadable _ _ after hSplit (Nat.not_le.mp hFree)
  have hSame : remote = key := by
    refine hOne key points now ?_
      (.check remote
        ((start config node).run c handler config
          (before ++ event :: middle)).clock) ?_ hHost
    · rw [hFirst, history_append, history_append]
      exact List.mem_append_left _ (List.mem_append_right _
        (List.mem_append_left _ hScore))
    · rw [hSplit, history_append, history, NetEvent.heard,
        calls, if_neg hFree, if_pos rfl]
      exact List.mem_append_right _
        (List.mem_append_left _ List.mem_cons_self)
  rw [hRead, hSame, if_pos rfl]
  dsimp only
  rw [if_pos (Penalties.check_banned hBan
    (hClock.trans_le hLater))]

end OnePorts

/- As long as no address with points changes its port. -/
theorem bans_kept
    (node : σ)
    (events : List NetEvent)
    (hOne :
      OnePort
        (history c handler config (start config node)
          events))
    (hReadable :
      Runs.Along (step c handler config) (Readable config)
        (start config node) events) :
    BansKept c handler config node events where
  accumulate := by
    rintro before after hSplit key points now hScore
    refine ((renames_history c handler config hOne hReadable
      hSplit).points key ⟨.score key points now, ?_,
        rfl⟩).symm
    rw [hSplit, history_append]
    exact List.mem_append_left _ hScore
  refused := by
    intro before event middle remote readable after hSplit
      key points now hScore hReached hHost hClock
    exact refused_while_banned c handler config hOne hReadable
      hSplit hScore hReached hHost hClock

end Histories

end PeerManager

------------------------------------------------------------
-- Samples
------------------------------------------------------------

namespace Sample

/- The request for addresses has no payload. -/
def malformedRequest : Message :=
  { command := .getAddr
    payload := [0] }

/- A peer at this port sends a malformed request. -/
def misbehaving
    (index : Nat)
    (port : UInt16) : List NetEvent :=
  [.accept (localhost port) true,
    .callback index (.headerRead .body) true,
    .callback index (.bodyRead (.message malformedRequest))
      true]

/- Five connections of one address, from different ports. -/
def portHopping : List NetEvent :=
  misbehaving 0 40000 ++ misbehaving 1 40001 ++
    misbehaving 2 40002 ++ misbehaving 3 40003 ++
    misbehaving 4 40004

theorem never_banned :
    let manager :=
      (PeerManager.start defaultConfig ()).run .reference
        quietNode defaultConfig portHopping
    let points :=
      (addressBook defaultConfig
          (PeerManager.history .reference quietNode
            defaultConfig (.start defaultConfig ())
            portHopping)).points
    manager.book.points (localhost 40004) = 20 ∧
      points "127.0.0.1" = 100 ∧
      (manager.step .reference quietNode defaultConfig
            (.accept (localhost 40000) true)).links.length =
        manager.links.length + 1 ∧
      ¬PeerManager.BansKept .reference quietNode
        defaultConfig ()
        (portHopping ++ [.accept (localhost 40000) true]) := by
  refine ⟨by decide +kernel, by decide +kernel,
    by decide +kernel, ?_⟩
  intro hKept
  have hLinks :=
    hKept.refused (portHopping.take 14)
      (.callback 4 (.bodyRead (.message malformedRequest))
        true)
      [] (localhost 40000) true [] rfl (localhost 40004) 20 0
      (by decide +kernel) (by decide +kernel) rfl
      (by decide +kernel)
  have hLength := congrArg List.length hLinks
  revert hLength
  decide +kernel

/- A single malformed message is enough for a ban. -/
def strictConfig : NetConfig :=
  { defaultConfig with banThreshold := 20 }

/- The same endpoint dials again while it is banned. -/
def returning : List NetEvent :=
  misbehaving 0 40000 ++ [.accept (localhost 40000) true]

theorem banned_here :
    PeerManager.BansKept .reference quietNode strictConfig ()
      returning := by
  refine PeerManager.bans_kept .reference quietNode
    strictConfig () returning ?_ ?_
  · have hKeys :
        ∀ call ∈
            PeerManager.history .reference quietNode
              strictConfig (.start strictConfig ()) returning,
          call.key = localhost 40000 := by
      decide +kernel
    intro key points now hScore other hOther _
    exact (hKeys other hOther).trans (hKeys _ hScore).symm
  · intro before event after hSplit
    have hEvent : event ∈ returning.map NetEvent.heard := by
      have hSame : returning.map NetEvent.heard = returning :=
        rfl
      rw [hSame, hSplit]
      exact List.mem_append_right _ List.mem_cons_self
    rcases List.mem_map.mp hEvent with ⟨unheard, -, rfl⟩
    exact PeerManager.readable_heard ..

end Sample

end Net

end Amarian
