import Mathlib.Tactic.Common

/-
  Runs of a machine, and conditions on their steps.

  A step takes a state and an event to the next state.  A
  condition may look at both of them before the step.

  Key definitions include:
    * `Runs.Along`
    * `Runs.Throughout`

  Key theorems include:
    * `Runs.throughout_of_along`
    * `Runs.throughout_iff_along`
    * `Runs.throughout_iff_along_of_kept`
-/

------------------------------------------------------------
-- Runs
------------------------------------------------------------

namespace Runs

variable {σ ε : Type}

/- Each step of the run meets the condition. -/
def Along
    (step : σ → ε → σ)
    (good : σ → ε → Prop)
    (state : σ)
    (events : List ε) : Prop :=
  ∀ before event after,
    events = before ++ event :: after →
      good (before.foldl step state) event

/- Each state of the run has the property. -/
def Throughout
    (step : σ → ε → σ)
    (holds : σ → Prop)
    (state : σ)
    (events : List ε) : Prop :=
  ∀ before after,
    events = before ++ after →
      holds (before.foldl step state)

variable {step : σ → ε → σ} {good : σ → ε → Prop}
variable {holds : σ → Prop} {state : σ}

theorem along_nil :
    Along step good state [] := by
  intro before event after hSplit
  cases List.append_eq_nil_iff.mp hSplit.symm |>.2

theorem along_cons
    {event : ε}
    {events : List ε} :
    Along step good state (event :: events) ↔
      good state event ∧
        Along step good (step state event) events := by
  constructor
  · intro hAlong
    refine ⟨hAlong [] event events rfl, ?_⟩
    rintro before other after rfl
    exact hAlong (event :: before) other after rfl
  · rintro ⟨hFirst, hRest⟩ before other after hSplit
    cases before with
    | nil =>
        cases hSplit
        exact hFirst
    | cons first before =>
        cases hSplit
        exact hRest before other after rfl

theorem Along.append_left
    {events later : List ε}
    (hAlong : Along step good state (events ++ later)) :
    Along step good state events := by
  rintro before event after rfl
  refine hAlong before event (after ++ later) ?_
  rw [List.append_assoc]
  rfl

theorem Along.append_right
    {events later : List ε}
    (hAlong : Along step good state (events ++ later)) :
    Along step good (events.foldl step state) later := by
  rintro before event after rfl
  have hEvent :=
    hAlong (events ++ before) event after
      (List.append_assoc ..).symm
  rw [List.foldl_append] at hEvent
  exact hEvent

theorem throughout_cons
    {event : ε}
    {events : List ε} :
    Throughout step holds state (event :: events) ↔
      holds state ∧
        Throughout step holds (step state event) events := by
  constructor
  · intro hThroughout
    refine ⟨hThroughout [] (event :: events) rfl, ?_⟩
    rintro before after rfl
    exact hThroughout (event :: before) after rfl
  · rintro ⟨hFirst, hRest⟩ before after hSplit
    cases before with
    | nil => exact hFirst
    | cons first before =>
        cases hSplit
        exact hRest before after rfl

theorem throughout_nil :
    Throughout step holds state [] ↔ holds state := by
  constructor
  · intro hThroughout
    exact hThroughout [] [] rfl
  · intro hState before after hSplit
    cases List.append_eq_nil_iff.mp hSplit.symm |>.1
    exact hState

theorem Throughout.final
    {events : List ε}
    (hThroughout : Throughout step holds state events) :
    holds (events.foldl step state) :=
  hThroughout events [] (List.append_nil events).symm

/- By induction on the events. -/
theorem throughout_of_along
    (hStep :
      ∀ state event,
        holds state → good state event →
          holds (step state event))
    (hState : holds state)
    {events : List ε}
    (hAlong : Along step good state events) :
    Throughout step holds state events := by
  induction events generalizing state with
  | nil => exact throughout_nil.mpr hState
  | cons event events ih =>
      rw [along_cons] at hAlong
      exact throughout_cons.mpr ⟨hState,
        ih (hStep state event hState hAlong.1) hAlong.2⟩

/- Where the condition is just what keeps the property. -/
theorem throughout_iff_along
    (hStep :
      ∀ state event,
        holds state →
          (holds (step state event) ↔ good state event))
    (hState : holds state)
    {events : List ε} :
    Throughout step holds state events ↔
      Along step good state events := by
  constructor
  · intro hThroughout before event after hSplit
    have hBefore := hThroughout before _ hSplit
    refine (hStep _ event hBefore).mp ?_
    have hAfter :=
      hThroughout (before ++ [event]) after
        (hSplit.trans (List.append_cons ..))
    rw [List.foldl_append] at hAfter
    exact hAfter
  · intro hAlong
    exact throughout_of_along
      (fun state event hHolds =>
        (hStep state event hHolds).mpr)
      hState hAlong

/-
  Where the condition is just what keeps an invariant behind
  the property.
-/
theorem throughout_iff_along_of_kept
    {kept : σ → Prop}
    {allowed : ε → Prop}
    (hHolds : ∀ state, kept state → holds state)
    (hKeeps :
      ∀ state event,
        kept state → allowed event → good state event →
          kept (step state event))
    (hBreaks :
      ∀ state event,
        kept state → allowed event → ¬good state event →
          ¬holds (step state event))
    (hState : kept state)
    {events : List ε}
    (hAllowed : ∀ event ∈ events, allowed event) :
    Throughout step holds state events ↔
      Along step good state events := by
  induction events generalizing state with
  | nil =>
      exact iff_of_true (throughout_nil.mpr (hHolds _ hState))
        along_nil
  | cons event events ih =>
      rw [List.forall_mem_cons] at hAllowed
      rw [throughout_cons, along_cons]
      by_cases hGood : good state event
      · have hNext := hKeeps state event hState hAllowed.1
          hGood
        rw [ih hNext hAllowed.2]
        exact and_congr_left fun _ =>
          iff_of_true (hHolds _ hState) hGood
      · refine iff_of_false ?_ fun hBoth => hGood hBoth.1
        rintro ⟨-, hLater⟩
        exact hBreaks state event hState hAllowed.1 hGood
          (hLater [] events rfl)

end Runs
