import Mathlib.Tactic.Common
import Mathlib.Data.List.Basic

/-
  Cutting a stream into messages.

  A step takes one message off the front of a stream or says
  how the stream ends.  Repeating a step gives the messages
  in order and the ending.  Two steps that never disagree
  about a message they both take give the same messages and
  ending exactly if they agree wherever the first one gets.

  Key definitions include:
    * `Framing.Step`
    * `Framing.transcript`
    * `Framing.Reached`

  Key theorems include:
    * `Framing.transcript_item`
    * `Framing.transcript_eq_iff`
-/

------------------------------------------------------------
-- Steps
------------------------------------------------------------

namespace Framing

/- The parser finds an item, or stops for good. -/
inductive Step (τ μ ε : Type) where
  | item (message : μ) (rest : List τ)
  | stop (ending : ε)

variable {τ μ ε : Type}

/- Every message takes something off the stream. -/
def Shrinks
    (next : List τ → Step τ μ ε) : Prop :=
  ∀ stream message rest,
    next stream = .item message rest →
      rest.length < stream.length

/- The fuel bounds the number of steps. -/
def collect
    (next : List τ → Step τ μ ε) :
    Nat → List τ → List μ × Option ε
  | 0, _ => ([], none)
  | fuel + 1, stream =>
      match next stream with
      | .stop ending => ([], some ending)
      | .item message rest =>
          let later := collect next fuel rest
          (message :: later.1, later.2)

/- No stream has more messages than tokens. -/
def transcript
    (next : List τ → Step τ μ ε)
    (stream : List τ) : List μ × Option ε :=
  collect next (stream.length + 1) stream

/- What is left of the stream after some of the messages. -/
inductive Reached
    (next : List τ → Step τ μ ε) :
    List τ → List τ → Prop
  | here (stream : List τ) : Reached next stream stream
  | later
      {stream rest final : List τ}
      {message : μ}
      (hItem : next stream = .item message rest)
      (hReached : Reached next rest final) :
      Reached next stream final

------------------------------------------------------------
-- Whole Streams
------------------------------------------------------------

variable {next other : List τ → Step τ μ ε}

/- More fuel than tokens changes nothing. -/
theorem collect_enough
    (hShrinks : Shrinks next)
    {fuel : Nat}
    {stream : List τ}
    (hFuel : stream.length < fuel) :
    collect next fuel stream = transcript next stream := by
  have hSame : ∀ (first second : Nat) (stream : List τ),
      stream.length < first →
        stream.length < second →
          collect next first stream =
            collect next second stream := by
    intro first
    induction first with
    | zero =>
        intro second stream hFirst
        exact absurd hFirst (Nat.not_lt_zero _)
    | succ first ih =>
        intro second stream hFirst hSecond
        cases second with
        | zero => exact absurd hSecond (Nat.not_lt_zero _)
        | succ second =>
            rw [collect, collect]
            cases hNext : next stream with
            | stop ending => rfl
            | item message rest =>
                have hLess := hShrinks _ _ _ hNext
                simp only
                rw [ih second rest (by omega) (by omega)]
  exact hSame _ _ stream hFuel (Nat.lt_succ_self _)

theorem transcript_stop
    {stream : List τ}
    {ending : ε}
    (hStop : next stream = .stop ending) :
    transcript next stream = ([], some ending) := by
  rw [transcript, collect, hStop]

theorem transcript_item
    (hShrinks : Shrinks next)
    {stream rest : List τ}
    {message : μ}
    (hItem : next stream = .item message rest) :
    transcript next stream =
      (message :: (transcript next rest).1,
        (transcript next rest).2) := by
  have hLess := hShrinks _ _ _ hItem
  rw [transcript, collect, hItem]
  simp only [collect_enough hShrinks hLess]

/-
  Two ways of cutting a stream compared along the messages
  the first one takes.
-/
theorem transcript_eq_iff
    (hShrinks : Shrinks next)
    (hOther : Shrinks other)
    (hItems :
      ∀ stream message rest found left,
        next stream = .item message rest →
          other stream = .item found left →
            message = found ∧ rest = left)
    (stream : List τ) :
    transcript next stream = transcript other stream ↔
      ∀ rest, Reached next stream rest →
        next rest = other rest := by
  induction hSize : stream.length using Nat.strongRecOn
      generalizing stream with
  | ind size ih =>
      cases hNext : next stream with
      | stop ending =>
          have hOnly : ∀ rest, Reached next stream rest →
              rest = stream := by
            intro rest hReached
            cases hReached with
            | here => rfl
            | later hItem _ =>
                rw [hNext] at hItem
                cases hItem
          rw [transcript_stop hNext]
          constructor
          · intro hSame rest hReached
            rw [hOnly rest hReached, hNext]
            cases hFound : other stream with
            | stop found =>
                rw [transcript_stop hFound] at hSame
                cases hSame
                rfl
            | item message left =>
                rw [transcript_item hOther hFound] at hSame
                cases hSame
          · intro hAll
            have hHere := hAll stream (.here stream)
            rw [hNext] at hHere
            rw [transcript_stop hHere.symm]
      | item message rest =>
          have hLess := hShrinks _ _ _ hNext
          have hRest := ih rest.length (by omega) rest rfl
          rw [transcript_item hShrinks hNext]
          constructor
          · intro hSame
            cases hFound : other stream with
            | stop found =>
                rw [transcript_stop hFound] at hSame
                cases hSame
            | item found left =>
                rcases hItems _ _ _ _ _ hNext hFound with
                  ⟨rfl, rfl⟩
                rw [transcript_item hOther hFound,
                  Prod.mk.injEq, List.cons.injEq] at hSame
                have hLater := hRest.mp
                  (Prod.ext hSame.1.2 hSame.2)
                intro final hReached
                cases hReached with
                | here => rw [hNext, hFound]
                | later hItem hFinal =>
                    rw [hNext] at hItem
                    cases hItem
                    exact hLater final hFinal
          · intro hAll
            have hHere := hAll stream (.here stream)
            rw [hNext] at hHere
            rw [transcript_item hOther hHere.symm,
              hRest.mpr fun final hFinal =>
                hAll final (.later hNext hFinal)]

end Framing
