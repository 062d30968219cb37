import Mathlib.Tactic.Common

/-
  Computations that read from a store that may fail.

  A failing read answers as if the record were absent and
  sets a latch that nothing clears.  Code that is written
  against the plain answers is then right exactly as long as
  the latch is off, and this file is the logic of that
  argument: `Tracks` says that a computation keeps the data
  it reads, never clears the latch, and answers what a pure
  specification answers if the latch is off at its end.

  Key definitions include:
    * `Latch`
    * `Latch.Tracks`
    * `Latch.TracksE`

  Key theorems include:
    * `Latch.Tracks.bind`
    * `Latch.TracksE.bind`
-/

------------------------------------------------------------
-- Latches
------------------------------------------------------------

/-
  How a state `σ` holds the data `δ` its reads answer from,
  and the latch that a failed read sets.
-/
structure Latch (σ δ : Type) where
  data : σ → δ
  latched : σ → Bool

namespace Latch

variable {σ δ α β γ ζ ε : Type}

/-
  Reading from data `d`, the computation `x` keeps the data
  and the latch, and if the latch ends off its answer,
  seen through `f`, is `b`.
-/
def Tracks
    (latch : Latch σ δ)
    (d : δ)
    (f : α → β)
    (x : StateM σ α)
    (b : β) : Prop :=
  ∀ s,
    latch.data s = d →
      latch.data (x s).2 = d ∧
        (latch.latched (x s).2 = false →
          latch.latched s = false ∧ f (x s).1 = b)

variable {latch : Latch σ δ} {d : δ}

theorem Tracks.pure
    {f : α → β}
    {a : α}
    {b : β}
    (hAnswer : f a = b) :
    Tracks latch d f (pure a) b := by
  intro s hData
  exact ⟨hData, fun hOff => ⟨hOff, hAnswer⟩⟩

theorem Tracks.bind
    {f : α → β}
    {g : γ → ζ}
    {x : StateM σ α}
    {y : α → StateM σ γ}
    {b : β}
    {c : β → ζ}
    (hx : Tracks latch d f x b)
    (hy : ∀ a, Tracks latch d g (y a) (c (f a))) :
    Tracks latch d g (x >>= y) (c b) := by
  intro s hData
  have hFirst := hx s hData
  have hSecond := hy (x s).1 (x s).2 hFirst.1
  refine ⟨hSecond.1, fun hOff => ?_⟩
  have hMiddle := hSecond.2 hOff
  have hStart := hFirst.2 hMiddle.1
  exact ⟨hStart.1, hMiddle.2.trans (congrArg c hStart.2)⟩

------------------------------------------------------------
-- Computations That Also Throw
------------------------------------------------------------

/- `Tracks` for the exception-and-state stack. -/
def TracksE
    (latch : Latch σ δ)
    (d : δ)
    (f : α → β)
    (x : ExceptT ε (StateM σ) α)
    (b : Except ε β) : Prop :=
  Tracks latch d (Except.map f) x.run b

theorem TracksE.pure
    {f : α → β}
    {a : α}
    {b : β}
    (hAnswer : f a = b) :
    TracksE latch d f
      (pure a : ExceptT ε (StateM σ) α) (.ok b) :=
  Tracks.pure (congrArg Except.ok hAnswer)

theorem TracksE.throw
    (f : α → β)
    (e : ε) :
    TracksE latch d f
      (throw e : ExceptT ε (StateM σ) α) (.error e) :=
  Tracks.pure rfl

theorem TracksE.lift
    {f : α → β}
    {x : StateM σ α}
    {b : β}
    (hx : Tracks latch d f x b) :
    TracksE latch d f
      (ExceptT.lift x : ExceptT ε (StateM σ) α) (.ok b) :=
  hx.bind (c := Except.ok) fun _ => Tracks.pure rfl

theorem TracksE.bind
    {f : α → β}
    {g : γ → ζ}
    {x : ExceptT ε (StateM σ) α}
    {y : α → ExceptT ε (StateM σ) γ}
    {b : Except ε β}
    {c : β → Except ε ζ}
    (hx : TracksE latch d f x b)
    (hy : ∀ a, TracksE latch d g (y a) (c (f a))) :
    TracksE latch d g (x >>= y) (b >>= c) := by
  unfold TracksE at hx ⊢
  rw [ExceptT.run_bind]
  refine hx.bind (c := fun r => r >>= c) fun r => ?_
  cases r with
  | error e => exact Tracks.pure rfl
  | ok a => exact hy a

theorem TracksE.liftExcept
    (r : Except ε α) :
    TracksE latch d id
      (liftExcept r : ExceptT ε (StateM σ) α) r := by
  cases r with
  | error e => exact TracksE.throw id e
  | ok a => exact TracksE.pure rfl

end Latch
