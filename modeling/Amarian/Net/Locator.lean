import Amarian.Chain.IndexRuns
import Amarian.Lib.Loop
import Amarian.Mining.Line

/-
  The block locator, which names blocks of the best header's
  line further and further apart.

  The walk back starts one block at a time and doubles its
  step from the tenth block on.  `locatorDepth` is how far
  below the best header the blocks it names lie.

  Key definitions include:
    * `BlockIndex.parentOf`
    * `LocatorWalk`
    * `buildLocator`
    * `locatorDepth`

  Key theorems include:
    * `Descends.advance`
    * `buildLocator_wellFormed`
-/

------------------------------------------------------------
-- The Walk
------------------------------------------------------------

namespace Amarian

namespace BlockIndex

/- What the parent link of an entry leads to. -/
def parentOf
    (index : BlockIndex)
    (entry : Amarian.Link) : Option Amarian.Link :=
  (index.lineage entry.hash).tail.head?

end BlockIndex

namespace Net

/- The variables of the loop. -/
structure LocatorWalk where
  locator : List Hash256
  step : UInt32
  entry : Option Amarian.Link

namespace LocatorWalk

/- The walk begins at the tip, with a step of one. -/
def start
    (index : BlockIndex)
    (best : Amarian.Link) : LocatorWalk :=
  { locator := [best.hash]
    step := 1
    entry := index.parentOf best }

/- One round of the loop, or `none` where it ends. -/
def advance
    (index : BlockIndex)
    (walk : LocatorWalk) : Option LocatorWalk :=
  match walk.entry with
  | none => none
  | some entry =>
      if entry.height > 0 then
        let locator := walk.locator ++ [entry.hash]
        let step :=
          if locator.length ≥ 10 then walk.step * 2
          else walk.step
        let targetHeight :=
          if entry.height > step then entry.height - step
          else 0
        some
          { locator
            step
            entry :=
              ancestor (index.lineage entry.hash)
                targetHeight }
      else
        none

end LocatorWalk

/- `none` when the rounds do not suffice. -/
def buildLocator
    (index : BlockIndex)
    (rounds : Nat) : Option (List Hash256) :=
  match index.bestHeader.bind index.find with
  | none => some []
  | some best =>
      (Loop.run (LocatorWalk.advance index) rounds
        (.start index best.toLink)).map
        fun walk => walk.locator ++ [index.genesis]

/- The longest locator that a peer reads. -/
def maxLocatorHashes : Nat := 101

------------------------------------------------------------
-- How Far Back
------------------------------------------------------------

/- The depth of a block of the locator, by its place. -/
def locatorDepth
    (place : Nat) : Nat :=
  if place < 8 then place else 2 ^ (place - 8) + 7

theorem locatorDepth_succ
    (place : Nat) :
    locatorDepth (place + 1) =
      locatorDepth place + 2 ^ (place - 8) := by
  unfold locatorDepth
  rcases Nat.lt_trichotomy place 7 with
    hLess | rfl | hMore
  · rw [if_pos (by omega), if_pos (by omega),
      show place - 8 = 0 by omega, pow_zero]
  · decide
  · rw [if_neg (by omega), if_neg (by omega),
      show place + 1 - 8 = place - 8 + 1 by omega, pow_succ]
    omega

theorem place_of_depth
    {place : Nat}
    (hDepth : locatorDepth place < 2 ^ 32) :
    place < 40 := by
  by_contra hFar
  unfold locatorDepth at hDepth
  rw [if_neg (by omega)] at hDepth
  have hPower : 2 ^ 32 ≤ 2 ^ (place - 8) :=
    Nat.pow_le_pow_right (by decide) (by omega)
  omega

------------------------------------------------------------
-- Ancestors
------------------------------------------------------------

variable {c : Crypto} {params : ChainParams}
variable {index : BlockIndex}

section Ancestors

variable {link : Amarian.Link}

theorem parentOf_eq
    (hIndex : IndexOk c params index)
    (hLink : link ∈ index.tree)
    (hHigh : 0 < link.height) :
    ∃ parent ∈ index.lineage link.hash,
      index.parentOf link = some parent ∧
        parent.height.toNat = link.height.toNat - 1 := by
  have hNot :
      link ≠
        rootLink c (buildGenesisBlock c params).header := by
    intro hRoot
    rw [hRoot] at hHigh
    exact UInt32.lt_irrefl 0 hHigh
  rcases hIndex.tree.follows hLink hNot with
    ⟨parent, hParent, hLinked, hFollows⟩
  have hLine :=
    hIndex.tree.grown.lineage_step hLink hLinked
  rcases hIndex.tree.grown.exists_lineage_eq_cons hParent
    with ⟨rest, hRest⟩
  rw [hRest] at hLine
  refine ⟨parent, ?_, ?_, ?_⟩
  · rw [BlockIndex.lineage, hLine]
    exact List.mem_cons_of_mem _ (List.mem_cons_self ..)
  · rw [BlockIndex.parentOf, BlockIndex.lineage, hLine]
    rfl
  · rw [hFollows.height]
    rfl

end Ancestors

------------------------------------------------------------
-- One Round
------------------------------------------------------------

/-
  The walk has passed some links and stands at one, all of
  them ancestors of the best header and each at its depth.
-/
structure Descends
    (index : BlockIndex)
    (best : Amarian.Link)
    (walk : LocatorWalk)
    (passed : List Amarian.Link)
    (entry : Amarian.Link) : Prop where
  locator : walk.locator = passed.map Amarian.Link.hash
  stands : walk.entry = some entry
  starts : passed.head? = some best
  step : walk.step.toNat = 2 ^ (passed.length - 9)
  height :
    entry.height.toNat =
      best.height.toNat - locatorDepth passed.length
  passes :
    locatorDepth (passed.length - 1) < best.height.toNat
  own :
    ∀ link ∈ passed ++ [entry],
      link ∈ index.lineage best.hash
  falls :
    (passed ++ [entry]).Pairwise
      fun upper lower => lower.height < upper.height

namespace Descends

variable {best entry : Amarian.Link}
variable {walk after : LocatorWalk} {passed : List Amarian.Link}

theorem few
    (hWalk : Descends index best walk passed entry) :
    passed.length ≤ 40 := by
  have hPlace := place_of_depth
    (Nat.lt_trans hWalk.passes best.height.toNat_lt)
  omega

theorem step_pos
    (hWalk : Descends index best walk passed entry) :
    walk.step ≠ 0 := by
  intro hZero
  have hStep := hWalk.step
  rw [hZero] at hStep
  exact absurd hStep.symm (Nat.two_pow_pos _).ne'

theorem start
    (hIndex : IndexOk c params index)
    (hBest : best ∈ index.tree)
    (hHigh : 0 < best.height) :
    ∃ entry,
      Descends index best (.start index best) [best]
        entry := by
  rcases parentOf_eq hIndex hBest hHigh with
    ⟨parent, hParent, hFound, hHeight⟩
  rw [UInt32.lt_iff_toNat_lt] at hHigh
  refine ⟨parent, rfl, hFound, rfl, rfl, hHeight, hHigh,
    ?_, ?_⟩
  · have hSelf :=
      hIndex.tree.grown.self_mem_lineage hBest
    intro link hLink
    rcases List.mem_cons.mp hLink with rfl | hLink
    · exact hSelf
    · rw [List.mem_singleton.mp hLink]
      exact hParent
  · apply List.pairwise_pair.mpr
    rw [UInt32.lt_iff_toNat_lt, hHeight]
    exact Nat.sub_one_lt_of_lt hHigh

theorem toNat_target
    (height step : UInt32) :
    (if height > step then height - step else 0).toNat =
      height.toNat - step.toNat := by
  split
  · rename_i hMore
    exact UInt32.toNat_sub_of_le _ _ (UInt32.le_of_lt hMore)
  · rename_i hLess
    rw [gt_iff_lt, UInt32.lt_iff_toNat_lt] at hLess
    rw [UInt32.toNat_zero]
    omega

/- The doubled step stays below the height it is taken at. -/
theorem toNat_doubled
    (hWalk : Descends index best walk passed entry)
    (hHigh : 0 < entry.height) :
    (if (walk.locator ++ [entry.hash]).length ≥ 10 then
        walk.step * 2
      else walk.step).toNat =
      2 ^ (passed.length + 1 - 9) := by
  have hLength :
      (walk.locator ++ [entry.hash]).length =
        passed.length + 1 := by
    rw [hWalk.locator, List.length_append, List.length_map]
    rfl
  rw [hLength]
  by_cases hLate : passed.length + 1 ≥ 10
  · have hFew : locatorDepth passed.length < 2 ^ 32 := by
      have hBelow := hWalk.height
      have hSmall := best.height.toNat_lt
      rw [UInt32.lt_iff_toNat_lt, UInt32.toNat_zero] at hHigh
      omega
    have hPlace := place_of_depth hFew
    have hPower :
        2 ^ (passed.length + 1 - 9) ≤ 2 ^ 31 :=
      Nat.pow_le_pow_right (by decide) (by omega)
    have hDouble :
        2 ^ (passed.length - 9) * 2 =
          2 ^ (passed.length + 1 - 9) := by
      rw [← pow_succ]
      congr 1
      omega
    rw [if_pos hLate, UInt32.toNat_mul, hWalk.step]
    change 2 ^ (passed.length - 9) * 2 % 2 ^ 32 = _
    rw [hDouble]
    exact Nat.mod_eq_of_lt
      (Nat.lt_of_le_of_lt hPower (by decide))
  · rw [if_neg hLate, hWalk.step]
    congr 1
    omega

/- What was passed lies above where the walk stands. -/
theorem below
    (hWalk : Descends index best walk passed entry)
    {next : Amarian.Link}
    (hNext : next.height < entry.height) :
    ((passed ++ [entry]) ++ [next]).Pairwise
      fun upper lower => lower.height < upper.height := by
  rw [List.pairwise_append]
  refine ⟨hWalk.falls, List.pairwise_singleton .., ?_⟩
  intro upper hUpper lower hLower
  rw [List.mem_singleton.mp hLower]
  rcases List.mem_append.mp hUpper with hPassed | hHere
  · have hAbove := (List.pairwise_append.mp hWalk.falls).2.2
      upper hPassed entry (List.mem_singleton_self _)
    exact UInt32.lt_trans hNext hAbove
  · rw [List.mem_singleton.mp hHere]
    exact hNext

/- One round passes the entry and stands further down. -/
theorem advance
    (hIndex : IndexOk c params index)
    (hBest : best ∈ index.tree)
    (hWalk : Descends index best walk passed entry)
    (hRound : walk.advance index = some after) :
    ∃ next,
      Descends index best after (passed ++ [entry]) next := by
  unfold LocatorWalk.advance at hRound
  rw [hWalk.stands] at hRound
  dsimp only at hRound
  by_cases hHigh : entry.height > 0
  · rw [if_pos hHigh, Option.some_inj] at hRound
    have hStep := hWalk.toNat_doubled hHigh
    generalize (if (walk.locator ++ [entry.hash]).length ≥ 10
      then walk.step * 2 else walk.step) = step
      at hRound hStep
    have hOwn := hWalk.own entry
      (List.mem_append_right _ (List.mem_singleton_self _))
    have hEntry : entry ∈ index.tree :=
      Arrival.mem_of_mem_lineage hOwn
    rw [gt_iff_lt, UInt32.lt_iff_toNat_lt,
      UInt32.toNat_zero] at hHigh
    have hTarget := toNat_target entry.height step
    generalize (if entry.height > step then
      entry.height - step else 0) = target
      at hRound hTarget
    have hLow : target ≤ entry.height := by
      rw [UInt32.le_iff_toNat_le]
      omega
    rcases ancestor_reached hIndex.tree hEntry hLow with
      ⟨next, hNext, hFound, hHeight⟩
    have hPower := Nat.two_pow_pos (passed.length + 1 - 9)
    have hDepth := locatorDepth_succ passed.length
    have hAt := hWalk.height
    subst hRound
    refine ⟨next, ?_⟩
    exact
      { locator := by
          rw [hWalk.locator, List.map_append]
          rfl
        stands := hFound
        starts := by
          rw [List.head?_append, hWalk.starts]
          rfl
        step := by
          rw [List.length_append]
          exact hStep
        height := by
          rw [hHeight, hTarget, hStep, hAt,
            List.length_append, List.length_singleton,
            hDepth, Nat.sub_sub]
          rfl
        passes := by
          rw [List.length_append, List.length_singleton,
            Nat.add_sub_cancel]
          omega
        own := by
          intro link hLink
          rcases List.mem_append.mp hLink with hOld | hNew
          · exact hWalk.own link hOld
          · rw [List.mem_singleton.mp hNew]
            exact hIndex.tree.grown.mem_lineage_trans hBest
              hOwn hNext
        falls := hWalk.below (by
          rw [hHeight, UInt32.lt_iff_toNat_lt]
          omega) }
  · rw [if_neg hHigh] at hRound
    cases hRound

/- The walk ends only where it stands at genesis. -/
theorem ends
    (hIndex : IndexOk c params index)
    (hWalk : Descends index best walk passed entry)
    (hEnds : walk.advance index = none) :
    entry.hash = index.genesis := by
  unfold LocatorWalk.advance at hEnds
  rw [hWalk.stands] at hEnds
  dsimp only at hEnds
  by_cases hHigh : entry.height > 0
  · rw [if_pos hHigh] at hEnds
    cases hEnds
  · have hOwn := hWalk.own entry
      (List.mem_append_right _ (List.mem_singleton_self _))
    have hEntry : entry ∈ index.tree :=
      Arrival.mem_of_mem_lineage hOwn
    by_contra hOther
    have hNot :
        entry ≠
          rootLink c (buildGenesisBlock c params).header := by
      intro hRoot
      exact hOther (hRoot ▸ hIndex.genesis.symm)
    rcases hIndex.tree.follows hEntry hNot with
      ⟨parent, -, -, hFollows⟩
    rw [gt_iff_lt, UInt32.lt_iff_toNat_lt, hFollows.height]
      at hHigh
    exact hHigh (Nat.succ_pos _)

end Descends

------------------------------------------------------------
-- The Locator
------------------------------------------------------------

/-
  The locator names ancestors of the best header, further
  and further down, from itself to genesis.  The loop ends
  before its step could wrap to zero.
-/
theorem buildLocator_wellFormed
    (calls : List IndexCall)
    {best : BlockIndexEntry}
    (hBest :
      (BlockIndex.after c params calls).bestHeader.bind
          (BlockIndex.after c params calls).find =
        some best)
    (hHeight : 0 < best.height) :
    ∃ links : List Amarian.Link,
      (∀ rounds ≥ maxLocatorHashes,
        buildLocator (BlockIndex.after c params calls)
            rounds =
          some (links.map Amarian.Link.hash)) ∧
      links.head? = some best.toLink ∧
      links.getLast?.map Amarian.Link.hash =
        some (BlockIndex.after c params calls).genesis ∧
      (∀ link ∈ links,
        link ∈
          (BlockIndex.after c params calls).lineage
            best.hash) ∧
      (links.Pairwise
        fun upper lower => lower.height < upper.height) ∧
      links.length ≤ maxLocatorHashes ∧
      ∀ walk,
        Loop.Reaches
            (LocatorWalk.advance
              (BlockIndex.after c params calls))
            (.start (BlockIndex.after c params calls)
              best.toLink)
            walk →
          walk.step ≠ 0 := by
  have hIndex : IndexOk c params
      (BlockIndex.after c params calls) :=
    (IndexOk.forNetwork c params).foldl_call calls
  generalize BlockIndex.after c params calls = index
    at hBest hIndex ⊢
  have hMember : best.toLink ∈ index.tree := by
    rcases Option.bind_eq_some_iff.mp hBest with
      ⟨hash, -, hFound⟩
    exact IndexOk.link_mem (IndexOk.mem_of_find hFound).1
  have hStart := Descends.start hIndex hMember hHeight
  let inv := fun walk => ∃ passed entry,
    Descends index best.toLink walk passed entry
  have hStarts : inv (.start index best.toLink) := by
    rcases hStart with ⟨entry, hWalk⟩
    exact ⟨_, entry, hWalk⟩
  have hKept : ∀ before after,
      inv before →
        LocatorWalk.advance index before = some after →
          inv after ∧
            41 - after.locator.length <
              41 - before.locator.length := by
    rintro before after ⟨passed, entry, hWalk⟩ hRound
    rcases hWalk.advance hIndex hMember hRound with
      ⟨next, hNext⟩
    refine ⟨⟨_, next, hNext⟩, ?_⟩
    have hFew := hWalk.few
    rw [hNext.locator, hWalk.locator, List.length_map,
      List.length_map, List.length_append,
      List.length_singleton]
    omega
  rcases Loop.exists_run hKept hStarts with
    ⟨final, hRun, ⟨passed, entry, hWalk⟩, hEnds⟩
  have hGenesis := hWalk.ends hIndex hEnds
  refine ⟨passed ++ [entry], ?_, ?_, ?_, hWalk.own,
    hWalk.falls, ?_, ?_⟩
  · intro rounds hRounds
    have hEnough : 41 - 1 < rounds :=
      Nat.lt_of_lt_of_le (by decide) hRounds
    rw [buildLocator, hBest]
    dsimp only
    rw [hRun rounds hEnough, Option.map_some, hWalk.locator,
      List.map_append, ← hGenesis]
    rfl
  · rw [List.head?_append, hWalk.starts]
    rfl
  · rw [List.getLast?_append, ← hGenesis]
    rfl
  · have hFew := hWalk.few
    rw [List.length_append, List.length_singleton,
      maxLocatorHashes]
    omega
  · intro walk hReaches
    rcases hReaches.kept
      (fun before after hInv hRound =>
        (hKept before after hInv hRound).1) hStarts with
      ⟨passed, entry, hReached⟩
    exact hReached.step_pos

end Net

------------------------------------------------------------
-- An Index Of Fourteen Headers
------------------------------------------------------------

namespace Sample

open Net

/- Thirteen headers above genesis. -/
def thirteenHeaders : BlockIndex :=
  .after cheapCrypto regtestParams
    ((List.range 13).map fun place =>
      .addHeader (lineHeader [burnt] (place + 1)) lineClock)

/- What the loop gives there, its last two steps doubled. -/
theorem thirteenHeaders_built :
    (thirteenHeaders.bestHeader.bind
          thirteenHeaders.find).map
        (fun best => best.height) =
        some 13 ∧
      buildLocator thirteenHeaders maxLocatorHashes =
        some ([13, 12, 11, 10, 9, 8, 7, 6, 5, 4, 2, 0].map
          (lineHash [burnt])) := by
  decide +kernel

/- The locator of that index. -/
theorem locator_thirteenHeaders :
    ∃ best,
      thirteenHeaders.bestHeader.bind thirteenHeaders.find =
          some best ∧
        ∃ links : List Amarian.Link,
          (∀ rounds ≥ maxLocatorHashes,
            buildLocator thirteenHeaders rounds =
              some (links.map Amarian.Link.hash)) ∧
          links.map Amarian.Link.hash =
            [13, 12, 11, 10, 9, 8, 7, 6, 5, 4, 2, 0].map
              (lineHash [burnt]) ∧
          links.head? = some best.toLink ∧
          links.getLast?.map Amarian.Link.hash =
            some thirteenHeaders.genesis := by
  rcases thirteenHeaders_built with ⟨hHeights, hLocator⟩
  rcases Option.map_eq_some_iff.mp hHeights with
    ⟨best, hBest, hHeight⟩
  have hHigh : 0 < best.height := by
    rw [hHeight]
    decide
  rcases buildLocator_wellFormed _ hBest hHigh with
    ⟨links, hBuilt, hFirst, hLast, -⟩
  have hOwn := hBuilt maxLocatorHashes (Nat.le_refl _)
  refine ⟨best, hBest, links, hBuilt, ?_, hFirst, hLast⟩
  exact Option.some.inj (hOwn.symm.trans hLocator)

end Sample

end Amarian
