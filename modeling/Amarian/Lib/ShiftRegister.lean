import Mathlib.Algebra.Group.Hom.Defs
import Mathlib.Algebra.Group.Hom.Basic
import Mathlib.Logic.Function.Iterate

/-
  Shift registers with an additive feedback.

  What the register holds is moved on by an additive map and
  the next value is added. A checksum of this form is what a
  polynomial leaves as the remainder of a division.

  Key definitions include:
    * `feed`
    * `run`

  Key theorems include:
    * `run_injective`
    * `run_replaced`
    * `run_check`
    * `run_suffix`
-/

------------------------------------------------------------
-- Runs
------------------------------------------------------------

namespace ShiftRegister

variable {State : Type*} [AddCommGroup State]
variable (shift : State →+ State)

/- Shifts the register and adds what comes in. -/
def feed
    (state value : State) : State :=
  shift state + value

/- Feeds the values one after the other. -/
def run
    (state : State)
    (values : List State) : State :=
  values.foldl (feed shift) state

@[simp] theorem run_nil
    (state : State) :
    run shift state [] = state :=
  rfl

@[simp] theorem run_cons
    (state value : State)
    (values : List State) :
    run shift state (value :: values) =
      run shift (feed shift state value) values :=
  rfl

theorem run_append
    (state : State)
    (first second : List State) :
    run shift state (first ++ second) =
      run shift (run shift state first) second := by
  unfold run
  exact List.foldl_append

/- What was there before is shifted along, and added. -/
theorem run_eq_add
    (state : State)
    (values : List State) :
    run shift state values =
      shift^[values.length] state + run shift 0 values := by
  induction values generalizing state with
  | nil => simp
  | cons value values hRest =>
      have hHere := hRest (feed shift state value)
      have hBlank := hRest (feed shift 0 value)
      rw [run_cons, run_cons, hHere, hBlank]
      have hFeed :
          shift^[values.length] (feed shift state value) =
            shift^[values.length] (shift state) +
              shift^[values.length] value := by
        unfold feed
        exact iterate_map_add shift _ _ _
      have hFeedBlank : feed shift 0 value = value := by
        unfold feed
        rw [map_zero, zero_add]
      rw [hFeed, hFeedBlank, List.length_cons,
        Function.iterate_succ_apply, add_assoc]

theorem run_replicate_zero
    (state : State)
    (count : Nat) :
    run shift state (List.replicate count 0) =
      shift^[count] state := by
  induction count generalizing state with
  | zero => rfl
  | succ count hRest =>
      have hFeed : feed shift state 0 = shift state := by
        unfold feed
        rw [add_zero]
      rw [List.replicate_succ, run_cons, hRest, hFeed,
        Function.iterate_succ_apply]

------------------------------------------------------------
-- Errors
------------------------------------------------------------

variable {shift}

theorem feed_injective
    (hShift : Function.Injective shift)
    {left right : State}
    (value : State)
    (hSame : feed shift left value =
      feed shift right value) :
    left = right := by
  unfold feed at hSame
  exact hShift (add_right_cancel hSame)

/- Two registers that differ go on differing. -/
theorem run_injective
    (hShift : Function.Injective shift)
    {left right : State}
    (values : List State)
    (hSame : run shift left values =
      run shift right values) :
    left = right := by
  induction values generalizing left right with
  | nil => exact hSame
  | cons value values hRest =>
      exact feed_injective hShift value (hRest hSame)

/- One value that is replaced always shows. -/
theorem run_replaced
    (hShift : Function.Injective shift)
    (state : State)
    (before after : List State)
    {value other : State}
    (hOther : other ≠ value) :
    run shift state (before ++ other :: after) ≠
      run shift state (before ++ value :: after) := by
  intro hSame
  rw [run_append, run_append, run_cons, run_cons] at hSame
  have hFed := run_injective hShift after hSame
  unfold feed at hFed
  exact hOther (add_left_cancel hFed)

------------------------------------------------------------
-- Check Values
------------------------------------------------------------

/- The check values make up what is missing to a target. -/
theorem run_check
    (state target : State)
    (values check : List State)
    (hCheck :
      run shift 0 check =
        target - run shift state
          (values ++ List.replicate check.length 0)) :
    run shift state (values ++ check) = target := by
  rw [run_append, run_eq_add, hCheck, run_append,
    run_replicate_zero]
  exact add_sub_cancel _ _

/- Nothing else of the same length makes it up. -/
theorem run_suffix
    (state : State)
    (values : List State)
    {check other : List State}
    (hLength : check.length = other.length)
    (hSame : run shift state (values ++ check) =
      run shift state (values ++ other)) :
    run shift 0 check = run shift 0 other := by
  rw [run_append, run_append, run_eq_add,
    run_eq_add _ _ other, hLength] at hSame
  exact add_left_cancel hSame

end ShiftRegister
