import Amarian.Utxo.Coins
import Mathlib.Data.Finset.Card

/-
  Stacks of caches, each over the one below it.

  The changes that were neither discarded nor abandoned are
  kept in a journal, one list for each cache, and a plain
  map to which they are applied answers as the stack does.

  Key definitions include:
    * `layered`
    * `CoinsChange`
    * `LayerStep`
    * `LayerRun`
    * `journalAfter`
    * `plainMap`

  Key theorems include:
    * `coherent_layered`
    * `coins_flush`
    * `Mirrors.step`
    * `NoTombstones.step`
    * `layers_compose`
-/

------------------------------------------------------------
-- Views In Memory
------------------------------------------------------------

namespace Amarian

namespace CoinsView

/- What the view's `getCoin` answers. -/
def coins
    (view : CoinsView Unit) : Utxo :=
  fun outpoint => (view.getCoin outpoint ()).1

/- What the view's `haveCoin` answers. -/
def has
    (view : CoinsView Unit)
    (outpoint : OutPoint) : Bool :=
  (view.haveCoin outpoint ()).1

/- The two reads agree on which coins there are. -/
def Coherent
    (view : CoinsView Unit) : Prop :=
  ∀ outpoint,
    view.has outpoint = (view.coins outpoint).isSome

/- The view in which nothing exists. -/
def emptyView : CoinsView Unit where
  getCoin := fun _ => pure none
  haveCoin := fun _ => pure false

theorem coherent_empty :
    emptyView.Coherent :=
  fun _ => rfl

/- In memory nothing fails, so tracking is equality. -/
theorem tracks_memory
    {α β : Type}
    {f : α → β}
    {x : StateM Unit α}
    {b : β} :
    memoryLatch.Tracks () f x b ↔ f (x ()).1 = b :=
  ⟨fun hTracks => ((hTracks () rfl).2 rfl).2,
    fun hSame _ _ => ⟨rfl, fun _ => ⟨rfl, hSame⟩⟩⟩

theorem Coherent.answers
    {view : CoinsView Unit}
    (hView : view.Coherent) :
    view.Answers memoryLatch () view.coins :=
  fun outpoint =>
    ⟨tracks_memory.mpr rfl,
      tracks_memory.mpr (hView outpoint)⟩

end CoinsView

------------------------------------------------------------
-- Layers
------------------------------------------------------------

/- The view of a stack of caches, the topmost one first. -/
def layered
    (base : CoinsView Unit) :
    List CoinsCache → CoinsView Unit
  | [] => base
  | top :: below => top.onto (layered base below)

/- What is done to the layer on top. -/
inductive CoinsChange where
  | addCoin (outpoint : OutPoint) (coin : Coin)
  | spendCoin (outpoint : OutPoint)
  | write (outpoint : OutPoint) (coin : Option Coin)

/- What a change makes of a plain map. -/
def CoinsChange.apply
    (coins : Utxo) : CoinsChange → Utxo
  | addCoin outpoint coin =>
      (coins.add outpoint coin).getD coins
  | spendCoin outpoint =>
      ((coins.spend outpoint).map Prod.snd).getD coins
  | write outpoint coin =>
      Function.update coins outpoint coin

namespace CoinsCache

/- What a change makes of a cache. -/
def change
    (base : CoinsView Unit)
    (cache : CoinsCache) : CoinsChange → CoinsCache
  | .addCoin outpoint coin =>
      ((cache.addCoin base outpoint coin ()).1).getD cache
  | .spendCoin outpoint =>
      (((cache.spendCoin base outpoint ()).1).map
        Prod.snd).getD cache
  | .write outpoint coin =>
      (cache.write base outpoint coin ()).1

/- How many outpoints a layer has an entry for. -/
def changeCount
    (cache : CoinsCache) : Nat :=
  cache.entries.entries.length

end CoinsCache

/- Layers are put on, written down and taken off. -/
inductive LayerEvent where
  | change (made : CoinsChange)
  | discard
  | push
  | flush
  | pop

/-
  One event on a stack of caches.  A flush may write the
  entries in any order, and leaves the flushed cache empty.
  A cache that is popped takes its changes with it.
-/
inductive LayerStep
    (base : CoinsView Unit) :
    List CoinsCache → LayerEvent → List CoinsCache → Prop
  | change
      {top : CoinsCache}
      {below : List CoinsCache}
      (made : CoinsChange) :
      LayerStep base (top :: below) (.change made)
        (top.change (layered base below) made :: below)
  | discard
      {top : CoinsCache}
      {below : List CoinsCache} :
      LayerStep base (top :: below) .discard
        (.empty :: below)
  | push
      {stack : List CoinsCache} :
      LayerStep base stack .push (.empty :: stack)
  | flush
      {top order sink : CoinsCache}
      {below : List CoinsCache}
      (hOrder :
        order.entries.entries.Perm top.entries.entries) :
      LayerStep base (top :: sink :: below) .flush
        (.empty ::
          (order.flush (layered base below) sink ()).1 ::
            below)
  | pop
      {top : CoinsCache}
      {below : List CoinsCache} :
      LayerStep base (top :: below) .pop below

/- The stacks that a sequence of events can lead to. -/
inductive LayerRun
    (base : CoinsView Unit) :
    List LayerEvent → List CoinsCache → Prop
  | start : LayerRun base [] []
  | step
      {events : List LayerEvent}
      {event : LayerEvent}
      {before after : List CoinsCache}
      (hRun : LayerRun base events before)
      (hStep : LayerStep base before event after) :
      LayerRun base (events ++ [event]) after

------------------------------------------------------------
-- The Journal
------------------------------------------------------------

/- The changes of each cache that still count. -/
def journalAfter :
    List (List CoinsChange) → LayerEvent →
      List (List CoinsChange)
  | changes :: lower, .change made =>
      (changes ++ [made]) :: lower
  | _ :: lower, .discard => [] :: lower
  | journal, .push => [] :: journal
  | changes :: under :: lower, .flush =>
      [] :: (under ++ changes) :: lower
  | _ :: lower, .pop => lower
  | journal, _ => journal

/- The changes of each layer since it was put on. -/
def journalOf
    (events : List LayerEvent) : List (List CoinsChange) :=
  events.foldl journalAfter []

/- The plain map with all of a journal applied to it. -/
def plainMap
    (coins : Utxo) : List (List CoinsChange) → Utxo
  | [] => coins
  | changes :: lower =>
      changes.foldl CoinsChange.apply (plainMap coins lower)

------------------------------------------------------------
-- One Cache
------------------------------------------------------------

section Caches

variable {base : CoinsView Unit}

/- In memory a computation goes on from the answer alone. -/
theorem fst_bind
    {α β : Type}
    (x : StateM Unit α)
    (next : α → StateM Unit β) :
    ((x >>= next) ()).1 = (next (x ()).1 ()).1 :=
  rfl

theorem coins_onto
    (base : CoinsView Unit)
    (cache : CoinsCache) :
    (cache.onto base).coins = cache.lookup base.coins := by
  funext outpoint
  unfold CoinsView.coins CoinsCache.onto CoinsCache.getCoin
    CoinsCache.lookup Overlay.apply
  dsimp only
  cases cache.entries.lookup outpoint <;> rfl

theorem coherent_onto
    (hBase : base.Coherent)
    (cache : CoinsCache) :
    (cache.onto base).Coherent := by
  intro outpoint
  unfold CoinsView.has CoinsView.coins CoinsCache.onto
    CoinsCache.haveCoin CoinsCache.getCoin
  dsimp only
  cases cache.entries.lookup outpoint with
  | none => exact hBase outpoint
  | some entry => rfl

theorem coherent_layered
    (hBase : base.Coherent)
    (stack : List CoinsCache) :
    (layered base stack).Coherent := by
  induction stack with
  | nil => exact hBase
  | cons top below ih => exact coherent_onto ih top

theorem coins_empty
    (base : CoinsView Unit) :
    (CoinsCache.empty.onto base).coins = base.coins := by
  rw [coins_onto, CoinsCache.lookup_empty]

/- A change to a cache is one to the map it stands for. -/
theorem coins_change
    (hBase : base.Coherent)
    (cache : CoinsCache)
    (made : CoinsChange) :
    ((cache.change base made).onto base).coins =
      made.apply (cache.onto base).coins := by
  rw [coins_onto, coins_onto]
  cases made with
  | addCoin outpoint coin =>
      have hAdded := CoinsView.tracks_memory.mp
        (CoinsCache.addCoin_tracks hBase.answers cache
          outpoint coin)
      rw [CoinsChange.apply, ← hAdded, CoinsCache.change]
      cases (cache.addCoin base outpoint coin ()).1 <;> rfl
  | spendCoin outpoint =>
      have hSpent := CoinsView.tracks_memory.mp
        (CoinsCache.spendCoin_tracks hBase.answers cache
          outpoint)
      rw [CoinsChange.apply, ← hSpent, CoinsCache.change]
      cases (cache.spendCoin base outpoint ()).1 <;> rfl
  | write outpoint coin =>
      exact CoinsView.tracks_memory.mp
        (CoinsCache.write_tracks hBase.answers cache outpoint
          coin)

/- In whichever order the entries are written. -/
theorem coins_flush
    (hBase : base.Coherent)
    {top order sink : CoinsCache}
    (hOrder :
      order.entries.entries.Perm top.entries.entries) :
    ((order.flush base sink ()).1.onto base).coins =
      (top.onto (sink.onto base)).coins := by
  have hFlushed := CoinsView.tracks_memory.mp
    (CoinsCache.flush_tracks hBase.answers order sink)
  have hSame :
      order.lookup (sink.lookup base.coins) =
        top.lookup (sink.lookup base.coins) := by
    funext outpoint
    unfold CoinsCache.lookup Overlay.apply
    rw [AList.perm_lookup hOrder]
  rw [coins_onto, coins_onto, coins_onto, hFlushed, hSame]

end Caches

------------------------------------------------------------
-- Stack And Journal
------------------------------------------------------------

/- Every layer answers as its part of the journal does. -/
def Mirrors
    (base : CoinsView Unit) :
    List CoinsCache → List (List CoinsChange) → Prop
  | [], journal => journal = []
  | _ :: _, [] => False
  | top :: below, changes :: lower =>
      (layered base (top :: below)).coins =
          plainMap base.coins (changes :: lower) ∧
        Mirrors base below lower

namespace Mirrors

variable {base : CoinsView Unit}
variable {stack before after : List CoinsCache}
variable {journal : List (List CoinsChange)}

theorem coins
    (hMirrors : Mirrors base stack journal) :
    (layered base stack).coins =
      plainMap base.coins journal := by
  cases stack with
  | nil =>
      rw [show journal = [] from hMirrors]
      rfl
  | cons top below =>
      cases journal with
      | nil => exact hMirrors.elim
      | cons changes lower => exact hMirrors.1

theorem push
    (hMirrors : Mirrors base stack journal) :
    Mirrors base (.empty :: stack) ([] :: journal) := by
  refine ⟨?_, hMirrors⟩
  rw [layered, coins_empty]
  exact hMirrors.coins

theorem drop
    (hMirrors : Mirrors base stack journal)
    (depth : Nat) :
    Mirrors base (stack.drop depth) (journal.drop depth) := by
  induction depth generalizing stack journal with
  | zero => exact hMirrors
  | succ depth ih =>
      cases stack with
      | nil =>
          rw [show journal = [] from hMirrors]
          rfl
      | cons top below =>
          cases journal with
          | nil => exact hMirrors.elim
          | cons changes lower => exact ih hMirrors.2

/- One case for each event. -/
theorem step
    (hBase : base.Coherent)
    {event : LayerEvent}
    (hMirrors : Mirrors base before journal)
    (hStep : LayerStep base before event after) :
    Mirrors base after (journalAfter journal event) := by
  cases hStep with
  | @change top below made =>
      cases journal with
      | nil => exact hMirrors.elim
      | cons changes lower =>
          refine ⟨?_, hMirrors.2⟩
          have hTop := hMirrors.1
          rw [layered] at hTop
          rw [layered,
            coins_change (coherent_layered hBase below), hTop,
            plainMap, plainMap, List.foldl_append,
            List.foldl_cons, List.foldl_nil]
  | discard =>
      cases journal with
      | nil => exact hMirrors.elim
      | cons changes lower => exact hMirrors.2.push
  | push =>
      cases journal with
      | nil => exact hMirrors.push
      | cons changes lower => exact hMirrors.push
  | @flush top order sink below hOrder =>
      cases journal with
      | nil => exact hMirrors.elim
      | cons changes lower =>
          cases lower with
          | nil => exact hMirrors.2.elim
          | cons under lower =>
              have hFlushed :
                  Mirrors base
                    ((order.flush (layered base below)
                      sink ()).1 :: below)
                    ((under ++ changes) :: lower) := by
                refine ⟨?_, hMirrors.2.2⟩
                have hTop := hMirrors.1
                rw [layered, layered] at hTop
                rw [layered,
                  coins_flush (coherent_layered hBase below)
                    hOrder,
                  hTop, plainMap, plainMap, plainMap,
                  List.foldl_append]
              exact hFlushed.push
  | pop =>
      cases journal with
      | nil => exact hMirrors.elim
      | cons changes lower => exact hMirrors.2

theorem run
    (hBase : base.Coherent)
    {events : List LayerEvent}
    (hRun : LayerRun base events stack) :
    Mirrors base stack (journalOf events) := by
  induction hRun with
  | start => rfl
  | step hRun hStep ih =>
      rw [journalOf, List.foldl_append]
      exact ih.step hBase hStep

end Mirrors

------------------------------------------------------------
-- Tombstones
------------------------------------------------------------

/- Nothing is marked as spent. -/
def NoTombstones
    (cache : CoinsCache) : Prop :=
  ∀ outpoint, cache.entries.lookup outpoint ≠ some none

namespace NoTombstones

variable {cache : CoinsCache}

theorem empty :
    NoTombstones .empty :=
  fun _ hNone => by cases hNone

theorem insert
    (hClean : NoTombstones cache)
    (outpoint : OutPoint)
    (coin : Coin) :
    NoTombstones
      { entries :=
          cache.entries.insert outpoint (some coin) } := by
  intro other hNone
  by_cases hSame : other = outpoint
  · rw [hSame, AList.lookup_insert] at hNone
    cases hNone
  · rw [AList.lookup_insert_ne hSame] at hNone
    exact hClean other hNone

theorem erase
    (hClean : NoTombstones cache)
    (outpoint : OutPoint) :
    NoTombstones
      { entries := cache.entries.erase outpoint } := by
  intro other hNone
  by_cases hSame : other = outpoint
  · rw [hSame, AList.lookup_erase] at hNone
    cases hNone
  · rw [AList.lookup_erase_ne hSame] at hNone
    exact hClean other hNone

/- The empty view has no coin for a tombstone to hide. -/
theorem write
    (hClean : NoTombstones cache)
    (outpoint : OutPoint)
    (coin : Option Coin) :
    NoTombstones
      (cache.write .emptyView outpoint coin ()).1 := by
  cases coin with
  | none => exact hClean.erase outpoint
  | some coin => exact hClean.insert outpoint coin

theorem change
    (hClean : NoTombstones cache)
    (made : CoinsChange) :
    NoTombstones (cache.change .emptyView made) := by
  cases made with
  | addCoin outpoint coin =>
      unfold CoinsCache.change CoinsCache.addCoin
      dsimp only
      rw [fst_bind]
      cases (cache.haveCoin .emptyView outpoint ()).1 with
      | true => exact hClean
      | false => exact hClean.insert outpoint coin
  | spendCoin outpoint =>
      unfold CoinsCache.change CoinsCache.spendCoin
      dsimp only
      rw [fst_bind]
      cases (cache.getCoin .emptyView outpoint ()).1 with
      | none => exact hClean
      | some coin => exact hClean.erase outpoint
  | write outpoint coin => exact hClean.write outpoint coin

/- Each entry that a flush writes is one write. -/
theorem flush
    (hClean : NoTombstones cache)
    (order : CoinsCache) :
    NoTombstones (order.flush .emptyView cache ()).1 := by
  unfold CoinsCache.flush
  generalize order.entries.entries = entries
  induction entries generalizing cache with
  | nil => exact hClean
  | cons entry entries ih =>
      rw [List.foldlM_cons, fst_bind]
      exact ih (hClean.write entry.1 entry.2)

end NoTombstones

/- The lowest cache of the stack has no tombstone. -/
def RootClean
    (stack : List CoinsCache) : Prop :=
  ∀ root, stack.getLast? = some root → NoTombstones root

namespace RootClean

variable {top other : CoinsCache}
variable {stack below : List CoinsCache}

theorem single
    (hClean : NoTombstones top) :
    RootClean [top] := by
  intro root hRoot
  rw [List.getLast?_singleton, Option.some_inj] at hRoot
  exact hRoot ▸ hClean

/- What lies on a cache has no part in it. -/
theorem replace
    (hClean : RootClean (top :: below))
    (hAlone : below = [] → NoTombstones other) :
    RootClean (other :: below) := by
  cases below with
  | nil => exact single (hAlone rfl)
  | cons next below =>
      intro root hRoot
      rw [List.getLast?_cons_cons] at hRoot
      exact hClean root (by
        rw [List.getLast?_cons_cons]
        exact hRoot)

theorem push
    (hClean : RootClean stack) :
    RootClean (.empty :: stack) := by
  cases stack with
  | nil => exact single .empty
  | cons top below =>
      intro root hRoot
      rw [List.getLast?_cons_cons] at hRoot
      exact hClean root hRoot

theorem pop
    (hClean : RootClean (top :: below)) :
    RootClean below := by
  intro root hRoot
  apply hClean
  cases below with
  | nil => cases hRoot
  | cons next below =>
      rw [List.getLast?_cons_cons]
      exact hRoot

theorem step
    {before after : List CoinsCache}
    {event : LayerEvent}
    (hClean : RootClean before)
    (hStep : LayerStep .emptyView before event after) :
    RootClean after := by
  cases hStep with
  | @change top below made =>
      refine hClean.replace ?_
      rintro rfl
      exact (hClean top rfl).change made
  | discard => exact hClean.replace fun _ => .empty
  | push => exact hClean.push
  | @flush top order sink below hOrder =>
      refine (hClean.pop.replace ?_).push
      rintro rfl
      exact (hClean.pop sink rfl).flush order
  | pop => exact hClean.pop

theorem run
    {events : List LayerEvent}
    (hRun : LayerRun .emptyView events stack) :
    RootClean stack := by
  induction hRun with
  | start =>
      intro root hRoot
      cases hRoot
  | step hRun hStep ih => exact ih.step hStep

end RootClean

/- Without tombstones the keys are the unspent outpoints. -/
theorem mem_keys_iff
    {cache : CoinsCache}
    (hClean : NoTombstones cache)
    (outpoint : OutPoint) :
    outpoint ∈ cache.entries.keys ↔
      ((cache.onto .emptyView).coins outpoint).isSome := by
  have hKeys :
      outpoint ∈ cache.entries.keys ↔
        (cache.entries.lookup outpoint).isSome :=
    AList.lookup_isSome.symm
  have hNone := hClean outpoint
  rw [hKeys, coins_onto, CoinsCache.lookup, Overlay.apply]
  cases hFound : cache.entries.lookup outpoint with
  | none => rfl
  | some entry =>
      cases entry with
      | none => exact absurd hFound hNone
      | some coin => rfl

------------------------------------------------------------
-- Layers Compose
------------------------------------------------------------

/-
  Whatever is done on a stack of any depth, both reads agree
  at every layer, the stack answers as the plain map does,
  a flush moves the answers one layer down, and over nothing
  a cache holds just the unspent coins.
-/
theorem layers_compose
    {base : CoinsView Unit}
    (hBase : base.Coherent)
    {events : List LayerEvent}
    {stack : List CoinsCache}
    (hRun : LayerRun base events stack) :
    (∀ depth,
      (layered base (stack.drop depth)).Coherent ∧
        (layered base (stack.drop depth)).coins =
          plainMap base.coins
            ((journalOf events).drop depth)) ∧
      (∀ after,
        LayerStep base stack .flush after →
          (layered base after.tail).coins =
            (layered base stack).coins) ∧
      (base = .emptyView →
        ∀ root, stack.getLast? = some root →
          (∀ entry ∈ root.entries.entries,
            entry.2 ≠ none) ∧
          ∃ unspent : Finset OutPoint,
            (∀ outpoint,
              outpoint ∈ unspent ↔
                ((root.onto .emptyView).coins
                  outpoint).isSome) ∧
            root.changeCount = unspent.card) := by
  refine ⟨?_, ?_, ?_⟩
  · intro depth
    exact ⟨coherent_layered hBase _,
      ((Mirrors.run hBase hRun).drop depth).coins⟩
  · intro after hStep
    cases hStep with
    | @flush top order sink below hOrder =>
        exact coins_flush (coherent_layered hBase below)
          hOrder
  · rintro rfl root hRoot
    have hClean := RootClean.run hRun root hRoot
    refine ⟨?_, root.entries.keys.toFinset, ?_, ?_⟩
    · intro entry hEntry hNone
      apply hClean entry.1
      rw [← hNone]
      exact AList.mem_lookup_iff.mpr hEntry
    · intro outpoint
      rw [List.mem_toFinset]
      exact mem_keys_iff hClean outpoint
    · rw [List.toFinset_card_of_nodup root.entries.keys_nodup,
        AList.keys, List.keys, List.length_map]
      rfl

namespace Sample

/- Any coin will do. -/
def layerCoin : Coin :=
  { output :=
      { amount := 1, lock := { version := 1, program := [] } }
    height := 0
    isCoinbase := false }

/- A coin is added, and spent in a layer that is flushed. -/
def layerEvents : List LayerEvent :=
  [.push, .change (.addCoin ⟨.zero, 0⟩ layerCoin), .push,
    .change (.spendCoin ⟨.zero, 0⟩), .flush]

theorem layers_flushed :
    ∃ stack,
      LayerRun .emptyView layerEvents stack ∧
        (layered .emptyView stack).coins =
          plainMap CoinsView.emptyView.coins
            [[], [.addCoin ⟨.zero, 0⟩ layerCoin,
              .spendCoin ⟨.zero, 0⟩]] := by
  have hTwo :
      LayerRun .emptyView (layerEvents.take 4) _ :=
    .step
      (.step (.step (.step .start .push) (.change _)) .push)
      (.change _)
  have hRun : LayerRun .emptyView layerEvents _ :=
    .step hTwo (.flush (List.Perm.refl _))
  exact ⟨_, hRun,
    ((layers_compose CoinsView.coherent_empty hRun).1 0).2⟩

end Sample

end Amarian
