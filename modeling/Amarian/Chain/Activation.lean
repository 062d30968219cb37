import Amarian.Chain.Consistency

/-
  What activation keeps, and with it whole runs.

  Key definitions include:
    * `Kept`
    * `EveryStep`

  Key theorems include:
    * `Kept.activateBestChain`
    * `Kept.step`
    * `EveryStep.runFrom`
-/

------------------------------------------------------------
-- What Activation Keeps
------------------------------------------------------------

namespace Amarian

section Keeps

variable {env : ChainEnv}

/- A property that no part of an activation can destroy. -/
structure Kept
    (env : ChainEnv)
    (inv : ChainState → Prop) : Prop where
  filed :
    ∀ state, inv state →
      ChainDb.Filed env.crypto state.db.records
  quiet :
    ∀ state db, inv state →
      DbQuiet env.plan state.db db →
        inv { state with db }
  disconnect :
    ∀ state outcome after, inv state →
      DisconnectStep env state outcome after → inv after
  connect :
    ∀ hash state outcome after, inv state →
      ConnectStep env hash state outcome after → inv after

variable {inv : ChainState → Prop} {state : ChainState}

namespace Kept

theorem reachable
    (hKept : Kept env inv)
    (links : List Link)
    (hInv : inv state) :
    wp (Amarian.reachable env links)
      (fun _ after => inv after) state := by
  induction links generalizing state with
  | nil => exact hInv
  | cons link links ih =>
      unfold Amarian.reachable
      rw [wp_bind, wp_onDb]
      have hQuiet := (ChainDb.haveBlock_cases env.plan
        link.hash state.db).1
      have hRead := hKept.quiet state _ hInv hQuiet
      split
      · rw [wp_bind]
        exact wp_mono (ih hRead) fun _ _ hAfter => hAfter
      · exact hRead

theorem disconnectTip
    (hKept : Kept env inv)
    (summary : ActivationSummary)
    (hInv : inv state) :
    wpE (Amarian.disconnectTip env summary)
      (fun _ after => inv after) state :=
  wpE_mono
    (disconnectTip_spec (hKept.filed state hInv) summary)
    fun _ _ hStep => hKept.disconnect _ _ _ hInv hStep

theorem connectTip
    (hKept : Kept env inv)
    (hash : Hash256)
    (summary : ActivationSummary)
    (hInv : inv state) :
    wpE (Amarian.connectTip env hash summary)
      (fun _ after => inv after) state :=
  wpE_mono
    (connectTip_spec (hKept.filed state hInv) hash summary)
    fun _ _ hStep => hKept.connect _ _ _ _ hInv hStep

theorem disconnectAll
    (hKept : Kept env inv)
    (links : List Link)
    (summary : ActivationSummary)
    (hInv : inv state) :
    wpE (Amarian.disconnectAll env links summary)
      (fun _ after => inv after) state := by
  induction links generalizing state summary with
  | nil => exact hInv
  | cons link links ih =>
      unfold Amarian.disconnectAll
      rw [wpE_get_bind]
      split
      · exact hInv
      · rw [wpE_bind]
        refine wpE_mono
          (hKept.disconnectTip summary hInv) ?_
        intro outcome after hAfter
        cases outcome with
        | error failure => exact hAfter
        | ok summary => exact ih summary hAfter

theorem connectAll
    (hKept : Kept env inv)
    (links : List Link)
    (summary : ActivationSummary)
    (hInv : inv state) :
    wpE (Amarian.connectAll env links summary)
      (fun _ after => inv after) state := by
  induction links generalizing state summary with
  | nil => exact hInv
  | cons link links ih =>
      unfold Amarian.connectAll
      rw [wpE_bind]
      refine wpE_mono
        (hKept.connectTip link.hash summary hInv) ?_
      intro outcome after hAfter
      cases outcome with
      | error failure => exact hAfter
      | ok done =>
          rcases done with ⟨applied, summary⟩
          cases applied with
          | true => exact ih summary hAfter
          | false => exact hAfter

theorem switchTo
    (hKept : Kept env inv)
    (fork : Link)
    (plan : ChainSwitch)
    (summary : ActivationSummary)
    (hInv : inv state) :
    wpE (Amarian.switchTo env fork plan summary)
      (fun _ after => inv after) state := by
  unfold Amarian.switchTo
  rw [wpE_lift_bind]
  refine wp_mono (hKept.reachable plan.connect hInv) ?_
  intro path middle hMiddle
  rw [wpE_get_bind]
  simp only
  split
  · exact hMiddle
  · rw [wpE_bind]
    refine wpE_mono
      (hKept.disconnectAll plan.disconnect summary hMiddle)
      ?_
    intro outcome reverted hReverted
    cases outcome with
    | error failure => exact hReverted
    | ok summary =>
        rw [afterE, wpE_bind]
        refine wpE_mono
          (hKept.connectAll path summary hReverted) ?_
        intro outcome applied hApplied
        cases outcome with
        | error failure => exact hApplied
        | ok summary => exact hApplied

theorem activatePass
    (hKept : Kept env inv)
    (summary : ActivationSummary)
    (hInv : inv state) :
    wpE (Amarian.activatePass env summary)
      (fun _ after => inv after) state := by
  unfold Amarian.activatePass
  rw [wpE_get_bind]
  split
  · exact hInv
  · split
    · exact hInv
    · simp only
      split
      · exact hInv
      · split
        · exact hInv
        · exact hKept.switchTo _ _ summary hInv

theorem activateLoop
    (hKept : Kept env inv)
    (fuel : Nat)
    (summary : ActivationSummary)
    (hInv : inv state) :
    wpE (Amarian.activateLoop env fuel summary)
      (fun _ after => inv after) state := by
  induction fuel generalizing state summary with
  | zero => exact hInv
  | succ fuel ih =>
      unfold Amarian.activateLoop
      rw [wpE_bind]
      refine wpE_mono (hKept.activatePass summary hInv) ?_
      intro outcome after hAfter
      cases outcome with
      | error failure => exact hAfter
      | ok done =>
          rcases done with ⟨returned, summary⟩
          cases returned with
          | true => exact hAfter
          | false => exact ih summary hAfter

/- Whatever its parts keep, the whole call keeps. -/
theorem activateBestChain
    (hKept : Kept env inv)
    (hInv : inv state) :
    wpE (Amarian.activateBestChain env)
      (fun _ after => inv after) state := by
  unfold Amarian.activateBestChain
  rw [wpE_get_bind]
  exact hKept.activateLoop _ _ hInv

/-
  One call, if accepting what it offers keeps the property
  and the list of moments does not matter to it.
-/
theorem step
    (hKept : Kept env inv)
    (call : Call)
    (hReset :
      ∀ state moments, inv state →
        inv { state with moments })
    (hHeader :
      ∀ header now state after,
        call = .acceptHeader header now → inv state →
          HeaderStep env header now state after → inv after)
    (hBlock :
      ∀ block now state after,
        call = .acceptBlock block now → inv state →
          BlockStep env block now state after → inv after)
    (hInv : inv state) :
    inv (Amarian.step env state call) := by
  have hStart := hReset state [⟨state.db, state.index⟩] hInv
  cases call with
  | acceptHeader header now =>
      exact hHeader header now _ _ rfl hStart
        (acceptHeader_spec header now _)
  | acceptBlock block now =>
      exact hBlock block now _ _ rfl hStart
        (acceptBlock_spec block now _)
  | activateBestChain =>
      exact hKept.activateBestChain hStart

end Kept

end Keeps

------------------------------------------------------------
-- Runs Under A Condition
------------------------------------------------------------

/- The condition holds in the state before each call. -/
def EveryStep
    (env : ChainEnv)
    (condition : ChainState → Call → Prop) :
    ChainState → List Call → Prop
  | _, [] => True
  | state, call :: calls =>
      condition state call ∧
        EveryStep env condition (step env state call) calls

theorem EveryStep.runFrom
    {env : ChainEnv}
    {condition : ChainState → Call → Prop}
    {inv : ChainState → Prop}
    {state : ChainState}
    {calls : List Call}
    (hStep :
      ∀ state, ∀ call ∈ calls, inv state →
        condition state call → inv (step env state call))
    (hSteps : EveryStep env condition state calls)
    (hInv : inv state) :
    inv (Amarian.runFrom env state calls) := by
  induction calls generalizing state with
  | nil => exact hInv
  | cons call calls ih =>
      have hNext := hStep state call
        (List.mem_cons_self ..) hInv hSteps.1
      refine ih ?_ hSteps.2 hNext
      intro later other hOther
      exact hStep later other (List.mem_cons_of_mem _ hOther)

/- What one call gives, the calls of a run give. -/
theorem EveryStep.imp
    {env : ChainEnv}
    {first second : ChainState → Call → Prop}
    {inv : ChainState → Prop}
    {state : ChainState}
    {calls : List Call}
    (hKeep :
      ∀ state call, inv state → inv (step env state call))
    (hImp :
      ∀ state call, inv state → first state call →
        second state call)
    (hInv : inv state)
    (hSteps : EveryStep env first state calls) :
    EveryStep env second state calls := by
  induction calls generalizing state with
  | nil => trivial
  | cons call calls ih =>
      exact ⟨hImp state call hInv hSteps.1,
        ih (hKeep state call hInv) hSteps.2⟩

end Amarian
