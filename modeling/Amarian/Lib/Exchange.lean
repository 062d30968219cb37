import Mathlib.Logic.Function.Basic
import Amarian.Lib.Runs

/-
  Two parties that send each other messages.

  What one of them sends arrives in the order it was sent,
  at any later time.  Both read one shared value, which may
  advance between two steps.

  Key definitions include:
    * `Exchange.Parties`
    * `Exchange.Pair`
    * `Exchange.step`
    * `Exchange.Contract`

  Key theorems include:
    * `Exchange.Contract.lasts_iff`
-/

------------------------------------------------------------
-- Parties
------------------------------------------------------------

namespace Exchange

/- The two ends of a connection. -/
inductive Side where
  | left
  | right
deriving DecidableEq

namespace Side

/- The end across from this one. -/
def other : Side → Side
  | left => right
  | right => left

@[simp]
theorem other_other
    (side : Side) :
    side.other.other = side := by
  cases side <;> rfl

theorem other_ne
    (side : Side) :
    side.other ≠ side := by
  cases side <;> rintro ⟨⟩

theorem eq_or_eq_other
    (first second : Side) :
    first = second ∨ first = second.other := by
  cases first <;> cases second <;> decide

end Side

variable {κ σ μ ε : Type}

/-
  What the parties do by themselves and with a message: the
  next state and what is sent.  With `none` a party ends the
  exchange.
-/
structure Parties (κ σ μ ε : Type) where
  advance : κ → κ → κ
  act : Side → κ → ε → σ → σ × List μ
  receive : Side → κ → μ → σ → Option (σ × List μ)

/- The parties, and what is on its way to each of them. -/
structure Pair (κ σ μ : Type) where
  shared : κ
  party : Side → σ
  toward : Side → List μ
  ended : Bool

/- Time goes on, a side acts, or a message arrives. -/
inductive Event (κ ε : Type) where
  | advance (later : κ)
  | act (side : Side) (event : ε)
  | deliver (side : Side)

namespace Pair

/- A party has moved, and its messages are on their way. -/
def move
    (pair : Pair κ σ μ)
    (side : Side)
    (done : σ × List μ) : Pair κ σ μ :=
  { pair with
    party := Function.update pair.party side done.1
    toward :=
      Function.update pair.toward side.other
        (pair.toward side.other ++ done.2) }

/- Replaces what is under way toward a side. -/
def take
    (pair : Pair κ σ μ)
    (side : Side)
    (rest : List μ) : Pair κ σ μ :=
  { pair with
    toward := Function.update pair.toward side rest }

section Parts

variable (pair : Pair κ σ μ) (side : Side)

theorem party_move
    (done : σ × List μ) :
    (pair.move side done).party side = done.1 :=
  Function.update_self ..

theorem party_move_other
    (done : σ × List μ) :
    (pair.move side done).party side.other =
      pair.party side.other :=
  Function.update_of_ne side.other_ne ..

theorem toward_move
    (done : σ × List μ) :
    (pair.move side done).toward side = pair.toward side :=
  Function.update_of_ne side.other_ne.symm ..

theorem toward_move_other
    (done : σ × List μ) :
    (pair.move side done).toward side.other =
      pair.toward side.other ++ done.2 :=
  Function.update_self ..

theorem toward_take
    (rest : List μ) :
    (pair.take side rest).toward side = rest :=
  Function.update_self ..

theorem toward_take_other
    (rest : List μ) :
    (pair.take side rest).toward side.other =
      pair.toward side.other :=
  Function.update_of_ne side.other_ne ..

end Parts

end Pair

/- One event; nothing happens once the exchange has ended. -/
def step
    (parties : Parties κ σ μ ε)
    (pair : Pair κ σ μ)
    (event : Event κ ε) : Pair κ σ μ :=
  if pair.ended then
    pair
  else
    match event with
    | .advance later =>
        { pair with
          shared := parties.advance pair.shared later }
    | .act side event =>
        pair.move side
          (parties.act side pair.shared event
            (pair.party side))
    | .deliver side =>
        match pair.toward side with
        | [] => pair
        | message :: rest =>
            match parties.receive side pair.shared message
                (pair.party side) with
            | none => { pair with ended := true }
            | some done => (pair.take side rest).move side done

------------------------------------------------------------
-- Contracts
------------------------------------------------------------

/-
  What holds of a party, of a message on its way to one, and
  what a message has to meet when it arrives.  Of the two
  states that a message is judged by, the receiver's comes
  first.
-/
structure Terms (κ σ μ : Type) where
  party : κ → Side → σ → Prop
  fits : κ → Side → σ → σ → μ → Prop
  meets : κ → Side → σ → μ → Prop

/- The move of one party leaves all as it should be. -/
structure Terms.Moved
    (terms : Terms κ σ μ)
    (shared : κ)
    (side : Side)
    (own peer : σ)
    (done : σ × List μ) : Prop where
  party : terms.party shared side done.1
  incoming :
    ∀ message, terms.fits shared side own peer message →
      terms.fits shared side done.1 peer message
  outgoing :
    ∀ message,
      terms.fits shared side.other peer own message →
        terms.fits shared side.other peer done.1 message
  sent :
    ∀ message ∈ done.2,
      terms.fits shared side.other peer done.1 message

/- What each side keeps to, so that the terms hold on. -/
structure Contract
    (parties : Parties κ σ μ ε)
    (terms : Terms κ σ μ)
    (allowed : ε → Prop) : Prop where
  advanceParty :
    ∀ shared later side own,
      terms.party shared side own →
        terms.party (parties.advance shared later) side own
  advanceFits :
    ∀ shared later side own peer message,
      terms.fits shared side own peer message →
        terms.fits (parties.advance shared later) side own
          peer message
  act :
    ∀ shared side event own peer,
      terms.party shared side own →
        terms.party shared side.other peer →
          allowed event →
            terms.Moved shared side own peer
              (parties.act side shared event own)
  receive :
    ∀ shared side message own peer,
      terms.party shared side own →
        terms.party shared side.other peer →
          terms.fits shared side own peer message →
            terms.meets shared side own message →
              ∃ done,
                parties.receive side shared message own =
                    some done ∧
                  terms.Moved shared side own peer done
  refuse :
    ∀ shared side message own peer,
      terms.party shared side own →
        terms.fits shared side own peer message →
          ¬terms.meets shared side own message →
            parties.receive side shared message own = none

/- The exchange goes on, and all is as it should be. -/
structure Standing
    (terms : Terms κ σ μ)
    (pair : Pair κ σ μ) : Prop where
  running : pair.ended = false
  party :
    ∀ side, terms.party pair.shared side (pair.party side)
  fits :
    ∀ side, ∀ message ∈ pair.toward side,
      terms.fits pair.shared side (pair.party side)
        (pair.party side.other) message

/- A message that is delivered is met by its receiver. -/
def Met
    (terms : Terms κ σ μ)
    (pair : Pair κ σ μ) : Event κ ε → Prop
  | .deliver side =>
      ∀ message rest,
        pair.toward side = message :: rest →
          terms.meets pair.shared side (pair.party side)
            message
  | _ => True

/- The actions that the parties may take. -/
def Allowed
    (allowed : ε → Prop) : Event κ ε → Prop
  | .act _ event => allowed event
  | _ => True

variable {parties : Parties κ σ μ ε} {terms : Terms κ σ μ}
variable {allowed : ε → Prop} {pair : Pair κ σ μ}

theorem Standing.take
    (hStanding : Standing terms pair)
    {side : Side}
    {message : μ}
    {rest : List μ}
    (hToward : pair.toward side = message :: rest) :
    Standing terms (pair.take side rest) where
  running := hStanding.running
  party := hStanding.party
  fits := by
    intro place found hFound
    refine hStanding.fits place found ?_
    rcases Side.eq_or_eq_other place side with rfl | rfl
    · rw [Pair.toward_take] at hFound
      rw [hToward]
      exact List.mem_cons_of_mem _ hFound
    · rw [Pair.toward_take_other] at hFound
      exact hFound

theorem Standing.move
    (hStanding : Standing terms pair)
    {side : Side}
    {done : σ × List μ}
    (hMoved :
      terms.Moved pair.shared side (pair.party side)
        (pair.party side.other) done) :
    Standing terms (pair.move side done) where
  running := hStanding.running
  party := by
    intro place
    rcases Side.eq_or_eq_other place side with rfl | rfl
    · rw [Pair.party_move]
      exact hMoved.party
    · rw [Pair.party_move_other]
      exact hStanding.party side.other
  fits := by
    intro place message hMessage
    rcases Side.eq_or_eq_other place side with rfl | rfl
    · rw [Pair.toward_move] at hMessage
      rw [Pair.party_move, Pair.party_move_other]
      exact hMoved.incoming message
        (hStanding.fits place message hMessage)
    · rw [Pair.toward_move_other, List.mem_append]
        at hMessage
      rw [Pair.party_move_other, Side.other_other,
        Pair.party_move]
      rcases hMessage with hOld | hNew
      · have hFits := hStanding.fits side.other message hOld
        rw [Side.other_other] at hFits
        exact hMoved.outgoing message hFits
      · exact hMoved.sent message hNew

theorem Standing.not_ended
    (hStanding : Standing terms pair) :
    ¬pair.ended = true := by
  rw [hStanding.running]
  exact Bool.false_ne_true

theorem Contract.standing_step
    (hContract : Contract parties terms allowed)
    (hStanding : Standing terms pair)
    {event : Event κ ε}
    (hAllowed : Allowed allowed event)
    (hMet : Met terms pair event) :
    Standing terms (step parties pair event) := by
  have hRunning := hStanding.not_ended
  cases event with
  | advance later =>
      rw [step, if_neg hRunning]
      exact
        { running := hStanding.running
          party := fun side =>
            hContract.advanceParty _ _ _ _
              (hStanding.party side)
          fits := fun side message hMessage =>
            hContract.advanceFits _ _ _ _ _ _
              (hStanding.fits side message hMessage) }
  | act side event =>
      rw [step, if_neg hRunning]
      exact hStanding.move (hContract.act _ side event _ _
        (hStanding.party side) (hStanding.party side.other)
        hAllowed)
  | deliver side =>
      rw [step, if_neg hRunning]
      cases hToward : pair.toward side with
      | nil => exact hStanding
      | cons message rest =>
          have hFits := hStanding.fits side message
            (by rw [hToward]; exact List.mem_cons_self ..)
          rcases hContract.receive _ side message _ _
            (hStanding.party side)
            (hStanding.party side.other) hFits
            (hMet message rest hToward) with
            ⟨done, hDone, hMoved⟩
          simp only [hDone]
          exact (hStanding.take hToward).move hMoved

theorem Contract.ended_step
    (hContract : Contract parties terms allowed)
    (hStanding : Standing terms pair)
    {event : Event κ ε}
    (hNot : ¬Met terms pair event) :
    (step parties pair event).ended = true := by
  cases event with
  | advance => exact absurd trivial hNot
  | act => exact absurd trivial hNot
  | deliver side =>
      rw [step, if_neg hStanding.not_ended]
      cases hToward : pair.toward side with
      | nil =>
          refine absurd ?_ hNot
          intro message rest hSome
          rw [hToward] at hSome
          cases hSome
      | cons message rest =>
          have hFits := hStanding.fits side message
            (by rw [hToward]; exact List.mem_cons_self ..)
          have hNone :
              parties.receive side pair.shared message
                  (pair.party side) =
                none := by
            refine hContract.refuse _ side message _ _
              (hStanding.party side) hFits ?_
            intro hMeets
            apply hNot
            intro found left hSome
            rw [hToward] at hSome
            cases hSome
            exact hMeets
          simp only [hNone]

/-
  No party ends the exchange, exactly if every message is
  met when it arrives.
-/
theorem Contract.lasts_iff
    (hContract : Contract parties terms allowed)
    (hStanding : Standing terms pair)
    {events : List (Event κ ε)}
    (hAllowed : ∀ event ∈ events, Allowed allowed event) :
    Runs.Throughout (step parties)
        (fun pair => pair.ended = false) pair events ↔
      Runs.Along (step parties) (Met terms) pair events := by
  refine Runs.throughout_iff_along_of_kept
    (fun _ hKept => hKept.running) ?_ ?_ hStanding hAllowed
  · intro pair event hStanding hAllowed hMet
    exact hContract.standing_step hStanding hAllowed hMet
  · intro pair event hStanding _ hNot hRunning
    rw [hContract.ended_step hStanding hNot] at hRunning
    cases hRunning

end Exchange
