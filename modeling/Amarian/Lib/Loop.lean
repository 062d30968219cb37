import Mathlib.Logic.Relation
import Mathlib.Tactic.Common

/-
  Loops that end by themselves.

  A round takes the state of a loop to the next one, or to
  none where the loop ends.  A loop whose rounds use up a
  measure ends, and where it ends does not depend on how
  many more rounds it was given.

  Key definitions include:
    * `Loop.run`
    * `Loop.Reaches`

  Key theorems include:
    * `Loop.Reaches.kept`
    * `Loop.exists_run`
-/

------------------------------------------------------------
-- Running A Loop
------------------------------------------------------------

namespace Loop

variable {σ : Type}

/- The state the loop ends in, if there are rounds enough. -/
def run
    (round : σ → Option σ) : Nat → σ → Option σ
  | 0, _ => none
  | fuel + 1, state =>
      match round state with
      | none => some state
      | some next => run round fuel next

/- Some number of rounds leads from one state to another. -/
abbrev Reaches
    (round : σ → Option σ) : σ → σ → Prop :=
  Relation.ReflTransGen
    fun before after => round before = some after

variable {round : σ → Option σ}

/- What every round keeps holds of every state reached. -/
theorem Reaches.kept
    {inv : σ → Prop}
    (hKept :
      ∀ before after,
        inv before → round before = some after → inv after)
    {start state : σ}
    (hStart : inv start)
    (hReaches : Reaches round start state) :
    inv state := by
  induction hReaches with
  | refl => exact hStart
  | tail _ hRound ih => exact hKept _ _ ih hRound

/-
  By induction on the rounds given: the measure is what is
  still to be used up, and none is left without rounds.
-/
theorem exists_run
    {inv : σ → Prop}
    {left : σ → Nat}
    (hKept :
      ∀ before after,
        inv before → round before = some after →
          inv after ∧ left after < left before)
    {start : σ}
    (hStart : inv start) :
    ∃ final,
      (∀ fuel, left start < fuel →
        run round fuel start = some final) ∧
      inv final ∧
      round final = none := by
  induction hLeft : left start using Nat.strongRecOn
    generalizing start with
  | _ count ih =>
      cases hRound : round start with
      | none =>
          refine ⟨start, ?_, hStart, hRound⟩
          intro fuel hFuel
          cases fuel with
          | zero => exact absurd hFuel (Nat.not_lt_zero _)
          | succ fuel => simp only [run, hRound]
      | some next =>
          rcases hKept start next hStart hRound with
            ⟨hNext, hLess⟩
          rcases ih (left next) (hLeft ▸ hLess) hNext rfl with
            ⟨final, hRun, hFinal, hEnds⟩
          refine ⟨final, ?_, hFinal, hEnds⟩
          intro fuel hFuel
          cases fuel with
          | zero => exact absurd hFuel (Nat.not_lt_zero _)
          | succ fuel =>
              simp only [run, hRound]
              exact hRun fuel (by omega)

end Loop
