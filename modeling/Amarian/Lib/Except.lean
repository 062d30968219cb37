import Mathlib.Tactic.Common

/-
  Taking a computation that may throw apart into its steps.

  Key definitions include:
    * `ExceptRel`
    * `ExceptSpares`
    * `ExceptFailsOnly`

  Key theorems include:
    * `except_bind_eq_ok`
    * `except_check_eq_ok`
    * `except_map_eq_ok`
    * `ExceptRel.bind`
-/

theorem except_bind_eq_ok
    {ε α β : Type}
    {x : Except ε α}
    {f : α → Except ε β}
    {b : β} :
    (x >>= f) = .ok b ↔
      ∃ a, x = .ok a ∧ f a = .ok b := by
  cases x with
  | error e => simp [bind, Except.bind]
  | ok a => simp [bind, Except.bind]

/- A check whose answer is only that it passed. -/
theorem except_check_eq_ok
    {ε β : Type}
    {x : Except ε Unit}
    {f : Unit → Except ε β}
    {b : β} :
    (x >>= f) = .ok b ↔ x = .ok () ∧ f () = .ok b := by
  cases x with
  | error e => simp [bind, Except.bind]
  | ok a => simp [bind, Except.bind]

theorem except_map_eq_ok
    {ε α β : Type}
    {x : Except ε α}
    {f : α → β}
    {b : β} :
    x.map f = .ok b ↔ ∃ a, x = .ok a ∧ f a = b := by
  cases x with
  | error e => simp [Except.map]
  | ok a => simp [Except.map]

theorem except_isOk
    {ε α : Type}
    {x : Except ε α}
    (hOk : x.isOk = true) :
    ∃ a, x = .ok a := by
  cases x with
  | error e => cases hOk
  | ok a => exact ⟨a, rfl⟩

------------------------------------------------------------
-- Related Outcomes
------------------------------------------------------------

/- Both throw the same error, or both answers are related. -/
inductive ExceptRel
    {ε α β : Type}
    (rel : α → β → Prop) :
    Except ε α → Except ε β → Prop
  | error
      (e : ε) :
      ExceptRel rel (.error e) (.error e)
  | ok
      {a : α}
      {b : β}
      (hRel : rel a b) :
      ExceptRel rel (.ok a) (.ok b)

namespace ExceptRel

variable {ε α β γ δ : Type}
variable {rel : α → β → Prop} {after : γ → δ → Prop}

theorem bind
    {x : Except ε α}
    {y : Except ε β}
    {f : α → Except ε γ}
    {g : β → Except ε δ}
    (hFirst : ExceptRel rel x y)
    (hRest :
      ∀ a b, rel a b → ExceptRel after (f a) (g b)) :
    ExceptRel after (x >>= f) (y >>= g) := by
  cases hFirst with
  | error e => exact .error e
  | ok hRel => exact hRest _ _ hRel

theorem refl
    (x : Except ε α) :
    ExceptRel Eq x x := by
  cases x with
  | error e => exact .error e
  | ok a => exact .ok rfl

theorem of_ok
    {a : α}
    {y : Except ε β}
    (hRel : ExceptRel rel (.ok a) y) :
    ∃ b, y = .ok b ∧ rel a b := by
  cases hRel with
  | ok hRel => exact ⟨_, rfl, hRel⟩

/- Outcomes related by a function are equal under it. -/
theorem map_eq
    {f : α → β}
    {x : Except ε α}
    {y : Except ε β}
    (hRel : ExceptRel (fun a b => f a = b) x y) :
    x.map f = y := by
  cases hRel with
  | error e => rfl
  | ok hEq => exact congrArg Except.ok hEq

end ExceptRel

------------------------------------------------------------
-- Errors That Cannot Occur
------------------------------------------------------------

/- The answer is good, or the error is not the bad one. -/
def ExceptSpares
    {ε α : Type}
    (bad : ε)
    (good : α → Prop) : Except ε α → Prop
  | .ok a => good a
  | .error e => e ≠ bad

namespace ExceptSpares

variable {ε α β : Type}
variable {bad : ε} {good : α → Prop} {after : β → Prop}

theorem bind
    {x : Except ε α}
    {f : α → Except ε β}
    (hFirst : ExceptSpares bad good x)
    (hRest : ∀ a, good a → ExceptSpares bad after (f a)) :
    ExceptSpares bad after (x >>= f) := by
  cases x with
  | error e => exact hFirst
  | ok a => exact hRest a hFirst

theorem mono
    {better : α → Prop}
    {x : Except ε α}
    (hSpares : ExceptSpares bad better x)
    (hImp : ∀ a, better a → good a) :
    ExceptSpares bad good x := by
  cases x with
  | error e => exact hSpares
  | ok a => exact hImp a hSpares

theorem ne_error
    {x : Except ε α}
    (hSpares : ExceptSpares bad good x) :
    x ≠ .error bad := by
  rintro rfl
  exact hSpares rfl

end ExceptSpares

------------------------------------------------------------
-- Errors That Alone Can Occur
------------------------------------------------------------

/- The answer is good, or the error is the one named. -/
def ExceptFailsOnly
    {ε α : Type}
    (only : ε)
    (good : α → Prop) : Except ε α → Prop
  | .ok a => good a
  | .error e => e = only

namespace ExceptFailsOnly

variable {ε α β : Type}
variable {only : ε} {good : α → Prop} {after : β → Prop}

theorem bind
    {x : Except ε α}
    {f : α → Except ε β}
    (hFirst : ExceptFailsOnly only good x)
    (hRest :
      ∀ a, x = .ok a → good a →
        ExceptFailsOnly only after (f a)) :
    ExceptFailsOnly only after (x >>= f) := by
  cases x with
  | error e => exact hFirst
  | ok a => exact hRest a rfl hFirst

/- Without the one error that is left the answer is there. -/
theorem exists_ok
    {spared : α → Prop}
    {x : Except ε α}
    (hFails : ExceptFailsOnly only good x)
    (hSpares : ExceptSpares only spared x) :
    ∃ a, x = .ok a ∧ good a ∧ spared a := by
  cases x with
  | error e => exact absurd hFails hSpares
  | ok a => exact ⟨a, rfl, hFails, hSpares⟩

end ExceptFailsOnly
