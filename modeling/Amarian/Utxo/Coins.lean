import Amarian.Lib.Latch
import Amarian.Lib.Overlay
import Amarian.Primitives.Transaction

/-
  The set of unspent coins and the layered cache that
  changes it.

  A view answers reads and may do input and output to do
  so, which is why its answers are computations over a
  state `σ`.  A cache holds the changes against a base view;
  it is itself a view, so caches can be stacked.

  Key definitions include:
    * `CoinsView`
    * `CoinsCache`
    * `CoinsCache.onto`
    * `CoinsCache.addCoin`
    * `CoinsCache.spendCoin`
    * `CoinsCache.flush`
    * `Utxo`
    * `CoinsView.Answers`

  Key theorems include:
    * `CoinsCache.onto_answers`
    * `CoinsCache.spendCoin_tracks`
    * `CoinsCache.addCoin_tracks`
    * `CoinsCache.flush_tracks`
-/

------------------------------------------------------------
-- Views And Caches
------------------------------------------------------------

namespace Amarian

/- What is asked of a layer of coins. -/
structure CoinsView
    (σ : Type) where
  getCoin : OutPoint → StateM σ (Option Coin)
  haveCoin : OutPoint → StateM σ Bool

/-
  The entries of a cache are its changes against the base,
  with `none` for a spend.
-/
structure CoinsCache where
  entries : Overlay OutPoint Coin

namespace CoinsCache

variable {σ : Type}

/- A cache that knows of no change. -/
def empty : CoinsCache :=
  { entries := ∅ }

/- The cache answers first, then what is below. -/
def getCoin
    (base : CoinsView σ)
    (cache : CoinsCache)
    (outpoint : OutPoint) : StateM σ (Option Coin) :=
  match cache.entries.lookup outpoint with
  | some entry => pure entry
  | none => base.getCoin outpoint

/- The same without the coin itself. -/
def haveCoin
    (base : CoinsView σ)
    (cache : CoinsCache)
    (outpoint : OutPoint) : StateM σ Bool :=
  match cache.entries.lookup outpoint with
  | some entry => pure entry.isSome
  | none => base.haveCoin outpoint

/- The view that a cache over `base` is. -/
def onto
    (base : CoinsView σ)
    (cache : CoinsCache) : CoinsView σ where
  getCoin := cache.getCoin base
  haveCoin := cache.haveCoin base

/-
  A tombstone is kept only where the base has a coin for it
  to hide.
-/
def markSpent
    (base : CoinsView σ)
    (cache : CoinsCache)
    (outpoint : OutPoint) : StateM σ CoinsCache := do
  if ← base.haveCoin outpoint then
    pure { entries := cache.entries.insert outpoint none }
  else
    pure { entries := cache.entries.erase outpoint }

/- A coin is stored, a gap is a spend. -/
def write
    (base : CoinsView σ)
    (cache : CoinsCache)
    (outpoint : OutPoint)
    (coin : Option Coin) : StateM σ CoinsCache :=
  match coin with
  | some _ =>
      pure { entries := cache.entries.insert outpoint coin }
  | none => cache.markSpent base outpoint

/- `none` if a coin is already there. -/
def addCoin
    (base : CoinsView σ)
    (cache : CoinsCache)
    (outpoint : OutPoint)
    (coin : Coin) : StateM σ (Option CoinsCache) := do
  if ← cache.haveCoin base outpoint then
    pure none
  else
    pure (some
      { entries :=
          cache.entries.insert outpoint (some coin) })

/- `none` if there is no coin to spend. -/
def spendCoin
    (base : CoinsView σ)
    (cache : CoinsCache)
    (outpoint : OutPoint) :
    StateM σ (Option (Coin × CoinsCache)) := do
  match ← cache.getCoin base outpoint with
  | none => pure none
  | some coin =>
      let cache ← cache.markSpent base outpoint
      pure (some (coin, cache))

/- Writes every change of `cache` into `sink`. -/
def flush
    (base : CoinsView σ)
    (cache : CoinsCache)
    (sink : CoinsCache) : StateM σ CoinsCache :=
  cache.entries.entries.foldlM
    (fun sink entry => sink.write base entry.1 entry.2)
    sink

end CoinsCache

------------------------------------------------------------
-- The Set Of Unspent Coins
------------------------------------------------------------

/- What a view stands for: the coin at each outpoint. -/
abbrev Utxo : Type :=
  OutPoint → Option Coin

namespace Utxo

def empty : Utxo :=
  fun _ => none

/- The coin comes out, and is gone. -/
def spend
    (coins : Utxo)
    (outpoint : OutPoint) : Option (Coin × Utxo) :=
  (coins outpoint).map
    fun coin => (coin, Function.update coins outpoint none)

/- An outpoint that is taken is left alone. -/
def add
    (coins : Utxo)
    (outpoint : OutPoint)
    (coin : Coin) : Option Utxo :=
  if (coins outpoint).isSome then
    none
  else
    some (Function.update coins outpoint (some coin))

end Utxo

namespace CoinsView

variable {σ δ : Type}

/- A set held in memory, which no read can fail to answer. -/
def ofSet
    (coins : Utxo) : CoinsView Unit where
  getCoin := fun outpoint => pure (coins outpoint)
  haveCoin := fun outpoint => pure (coins outpoint).isSome

/- The view answers as the set `coins` does. -/
def Answers
    (latch : Latch σ δ)
    (d : δ)
    (view : CoinsView σ)
    (coins : Utxo) : Prop :=
  ∀ outpoint,
    latch.Tracks d id (view.getCoin outpoint)
        (coins outpoint) ∧
      latch.Tracks d id (view.haveCoin outpoint)
        (coins outpoint).isSome

/- A state that holds no data and whose reads never fail. -/
def memoryLatch : Latch Unit Unit where
  data := id
  latched := fun _ => false

theorem ofSet_answers
    (coins : Utxo) :
    (ofSet coins).Answers memoryLatch () coins := by
  intro outpoint
  exact ⟨Latch.Tracks.pure rfl, Latch.Tracks.pure rfl⟩

end CoinsView

------------------------------------------------------------
-- Caches Over A Set
------------------------------------------------------------

namespace CoinsCache

variable {σ δ : Type}
variable {latch : Latch σ δ} {d : δ}
variable {base : CoinsView σ} {coins : Utxo}

/- The set that a cache over `coins` stands for. -/
def lookup
    (coins : Utxo)
    (cache : CoinsCache) : Utxo :=
  cache.entries.apply coins

@[simp] theorem lookup_empty
    (coins : Utxo) :
    lookup coins empty = coins :=
  Overlay.apply_empty coins

theorem onto_answers
    (hBase : base.Answers latch d coins)
    (cache : CoinsCache) :
    (cache.onto base).Answers latch d
      (cache.lookup coins) := by
  intro outpoint
  simp only [onto, getCoin, haveCoin, lookup, Overlay.apply]
  cases cache.entries.lookup outpoint with
  | none => exact hBase outpoint
  | some entry =>
      exact ⟨Latch.Tracks.pure rfl, Latch.Tracks.pure rfl⟩

theorem markSpent_tracks
    (hBase : base.Answers latch d coins)
    (cache : CoinsCache)
    (outpoint : OutPoint) :
    latch.Tracks d (lookup coins)
      (cache.markSpent base outpoint)
      (Function.update (cache.lookup coins)
        outpoint none) := by
  let marked : Bool → CoinsCache := fun hidden =>
    if hidden then
      { entries := cache.entries.insert outpoint none }
    else
      { entries := cache.entries.erase outpoint }
  have hMarked :
      lookup coins (marked (coins outpoint).isSome) =
        Function.update (cache.lookup coins)
          outpoint none := by
    cases hCoin : coins outpoint with
    | none =>
        exact Overlay.apply_erase _ _ _ hCoin
    | some coin =>
        exact Overlay.apply_insert _ _ _ _
  rw [← hMarked]
  refine (hBase outpoint).2.bind
    (c := fun hidden => lookup coins (marked hidden))
    fun hidden => ?_
  cases hidden <;> exact Latch.Tracks.pure rfl

theorem write_tracks
    (hBase : base.Answers latch d coins)
    (cache : CoinsCache)
    (outpoint : OutPoint)
    (coin : Option Coin) :
    latch.Tracks d (lookup coins)
      (cache.write base outpoint coin)
      (Function.update (cache.lookup coins)
        outpoint coin) := by
  cases coin with
  | none => exact markSpent_tracks hBase cache outpoint
  | some coin =>
      exact Latch.Tracks.pure
        (Overlay.apply_insert _ _ _ _)

theorem addCoin_tracks
    (hBase : base.Answers latch d coins)
    (cache : CoinsCache)
    (outpoint : OutPoint)
    (coin : Coin) :
    latch.Tracks d (Option.map (lookup coins))
      (cache.addCoin base outpoint coin)
      ((cache.lookup coins).add outpoint coin) := by
  refine ((onto_answers hBase cache) outpoint).2.bind
    (c := fun occupied : Bool =>
      if occupied then
        none
      else
        some (Function.update (cache.lookup coins)
          outpoint (some coin)))
    fun occupied => ?_
  cases occupied with
  | true => exact Latch.Tracks.pure rfl
  | false =>
      exact Latch.Tracks.pure
        (congrArg some (Overlay.apply_insert _ _ _ _))

theorem spendCoin_tracks
    (hBase : base.Answers latch d coins)
    (cache : CoinsCache)
    (outpoint : OutPoint) :
    latch.Tracks d
      (Option.map (Prod.map id (lookup coins)))
      (cache.spendCoin base outpoint)
      ((cache.lookup coins).spend outpoint) := by
  refine ((onto_answers hBase cache) outpoint).1.bind
    (c := Option.map fun coin =>
      (coin, Function.update (cache.lookup coins)
        outpoint none))
    fun found => ?_
  cases found with
  | none => exact Latch.Tracks.pure rfl
  | some coin =>
      exact (markSpent_tracks hBase cache outpoint).bind
        (c := fun spent => some (coin, spent))
        fun _ => Latch.Tracks.pure rfl

theorem flush_tracks
    (hBase : base.Answers latch d coins)
    (cache sink : CoinsCache) :
    latch.Tracks d (lookup coins)
      (cache.flush base sink)
      (cache.lookup (sink.lookup coins)) := by
  have hWrites :
      ∀ (entries : List (Sigma fun _ => Option Coin))
        (sink : CoinsCache),
        latch.Tracks d (lookup coins)
          (entries.foldlM
            (fun sink entry =>
              sink.write base entry.1 entry.2)
            sink)
          (entries.foldl
            (fun m entry =>
              Function.update m entry.1 entry.2)
            (sink.lookup coins)) := by
    intro entries
    induction entries with
    | nil =>
        intro sink
        exact Latch.Tracks.pure rfl
    | cons entry entries ih =>
        intro sink
        rw [List.foldlM_cons]
        exact (write_tracks hBase sink _ _).bind
          (c := fun m => entries.foldl
            (fun m entry =>
              Function.update m entry.1 entry.2) m)
          fun sink => ih sink
  have hEntries := hWrites cache.entries.entries sink
  rwa [Overlay.apply_eq_foldl] at hEntries

end CoinsCache

end Amarian
