import Mathlib.Tactic.Common

/-
  Weakest preconditions for computations over a state.

  `wp x post s` says that running `x` from `s` ends in an
  answer and a state that satisfy `post`.  The rules push a
  postcondition back through a computation one step at a
  time; a step whose effect is known by a lemma is replaced
  by that lemma with `wp_mono`.

  Key definitions include:
    * `wp`
    * `wpE`

  Key theorems include:
    * `wp_bind`
    * `wpE_bind`
    * `wp_mono`
-/

variable {σ ε α β : Type}

------------------------------------------------------------
-- State
------------------------------------------------------------

/- The result and the state after a run meet a condition. -/
def wp
    (x : StateM σ α)
    (post : α → σ → Prop)
    (s : σ) : Prop :=
  post (x s).1 (x s).2

theorem wp_mono
    {x : StateM σ α}
    {post weaker : α → σ → Prop}
    {s : σ}
    (hx : wp x post s)
    (hWeaker : ∀ a s, post a s → weaker a s) :
    wp x weaker s :=
  hWeaker _ _ hx

theorem wp_pure
    (a : α)
    (post : α → σ → Prop)
    (s : σ) :
    wp (pure a) post s ↔ post a s :=
  Iff.rfl

theorem wp_bind
    (x : StateM σ α)
    (f : α → StateM σ β)
    (post : β → σ → Prop)
    (s : σ) :
    wp (x >>= f) post s ↔
      wp x (fun a => wp (f a) post) s :=
  Iff.rfl

theorem wp_get
    (post : σ → σ → Prop)
    (s : σ) :
    wp get post s ↔ post s s :=
  Iff.rfl

theorem wp_modify
    (f : σ → σ)
    (post : PUnit → σ → Prop)
    (s : σ) :
    wp (modify f) post s ↔ post ⟨⟩ (f s) :=
  Iff.rfl

------------------------------------------------------------
-- State And Exceptions
------------------------------------------------------------

/- The same where the run may fail. -/
def wpE
    (x : ExceptT ε (StateM σ) α)
    (post : Except ε α → σ → Prop)
    (s : σ) : Prop :=
  wp x.run post s

/- What is left to show after a step that may have thrown. -/
def afterE
    (f : α → ExceptT ε (StateM σ) β)
    (post : Except ε β → σ → Prop)
    (outcome : Except ε α)
    (s : σ) : Prop :=
  match outcome with
  | .ok a => wpE (f a) post s
  | .error e => post (.error e) s

theorem wpE_mono
    {x : ExceptT ε (StateM σ) α}
    {post weaker : Except ε α → σ → Prop}
    {s : σ}
    (hx : wpE x post s)
    (hWeaker : ∀ a s, post a s → weaker a s) :
    wpE x weaker s :=
  hWeaker _ _ hx

theorem wpE_pure
    (a : α)
    (post : Except ε α → σ → Prop)
    (s : σ) :
    wpE (pure a) post s ↔ post (.ok a) s :=
  Iff.rfl

theorem wpE_lift
    (x : StateM σ α)
    (post : Except ε α → σ → Prop)
    (s : σ) :
    wpE (ExceptT.lift x) post s ↔
      wp x (fun a => post (.ok a)) s :=
  Iff.rfl

theorem wpE_get
    (post : Except ε σ → σ → Prop)
    (s : σ) :
    wpE get post s ↔ post (.ok s) s :=
  Iff.rfl

theorem wpE_bind
    (x : ExceptT ε (StateM σ) α)
    (f : α → ExceptT ε (StateM σ) β)
    (post : Except ε β → σ → Prop)
    (s : σ) :
    wpE (x >>= f) post s ↔ wpE x (afterE f post) s := by
  unfold wpE
  rw [ExceptT.run_bind, wp_bind]
  unfold wp afterE
  cases (x.run s).1 <;> exact Iff.rfl

/- The first step throws nothing, whatever comes after it. -/
theorem wpE_lift_bind
    (x : StateM σ α)
    (f : α → ExceptT ε (StateM σ) β)
    (post : Except ε β → σ → Prop)
    (s : σ) :
    wpE (ExceptT.lift x >>= f) post s ↔
      wp x (fun a => wpE (f a) post) s := by
  rw [wpE_bind, wpE_lift]
  exact Iff.rfl

theorem wpE_get_bind
    (f : σ → ExceptT ε (StateM σ) β)
    (post : Except ε β → σ → Prop)
    (s : σ) :
    wpE (get >>= f) post s ↔ wpE (f s) post s := by
  rw [wpE_bind, wpE_get]
  exact Iff.rfl
