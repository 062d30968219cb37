import Amarian.Chain.TipOrder
import Amarian.Chain.Verdicts

/-
  Two nodes that are offered the same blocks.

  The trees of the two differ in the order of arrival and in
  what was built on blocks that failed.  They agree on every
  block that can be applied, and the last activation of each
  node ends on the best of those.

  Key definitions include:
    * `lineOf`
    * `MostWork`
    * `Offers`

  Key theorems include:
    * `line_indexed`
    * `FullState.mostWork`
    * `nodes_converge`
-/

------------------------------------------------------------
-- Lines Without The Order Of Arrival
------------------------------------------------------------

namespace Amarian

/- A link without its place in the order of arrival. -/
def Link.unordered
    (link : Link) : Link :=
  { link with sequence := 0 }

theorem Link.of_unordered
    {first second : Link}
    (hSame : first.unordered = second.unordered) :
    first.header = second.header ∧
      first.hash = second.hash ∧
      first.totalWork = second.totalWork ∧
      first.parent = second.parent := by
  simp only [unordered, Link.mk.injEq] at hSame
  exact ⟨hSame.1, hSame.2.1, hSame.2.2.2.1,
    hSame.2.2.2.2.1⟩

/- A line of ancestors, whenever they arrived. -/
def lineOf
    (tree : List Link)
    (hash : Hash256) : List Link :=
  (ancestry tree hash).map Link.unordered

theorem branch_eq_lineOf
    (tree : List Link)
    (hash : Hash256) :
    branch tree hash = (lineOf tree hash).map Link.hash := by
  rw [branch, lineOf, List.map_map]
  rfl

/- A rule reads headers and heights, not arrival numbers. -/
theorem headerContextFor_unordered
    (parent : Link)
    (line : List Link)
    (now : Int64)
    (params : ChainParams)
    (candidate : Option Int64) :
    headerContextFor parent.unordered
        (line.map Link.unordered) now params candidate =
      headerContextFor parent line now params candidate := by
  have hMedian :
      medianTimePastAt (line.map Link.unordered) =
        medianTimePastAt line := by
    unfold medianTimePastAt
    rw [← List.map_take, List.map_map]
    rfl
  unfold headerContextFor
  rw [hMedian]
  rfl

/- Only the last rule looks at the clock. -/
theorem contextualCheck_of_clock
    {header : BlockHeader}
    {parent : Link}
    {line : List Link}
    {now later : Int64}
    {params : ChainParams}
    (hClock : tooFarAhead header.timestamp later = false)
    (hContext :
      contextualCheckBlockHeader header
          (headerContextFor parent line now params
            (some header.timestamp)) =
        .ok ()) :
    contextualCheckBlockHeader header
        (headerContextFor parent line later params
          (some header.timestamp)) =
      .ok () := by
  unfold contextualCheckBlockHeader headerContextFor
    at hContext ⊢
  simp only [except_bind_eq_ok, rejectIf_eq_ok] at hContext ⊢
  rcases hContext with
    ⟨a, hPrev, b, hHeight, d, hTarget, e, hOld, -⟩
  exact ⟨a, hPrev, b, hHeight, d, hTarget, e, hOld, hClock⟩

namespace TreeOk

variable {c : Crypto} {params : ChainParams}
variable {tree : List Link}

theorem prevBlock_eq
    (hTree : TreeOk c params tree)
    {link : Link}
    {above : Hash256}
    (hLink : link ∈ tree)
    (hParent : link.parent = some above) :
    link.header.prevBlock = above := by
  rcases hTree.child_cases hLink with
    rfl | ⟨first, -, -, hPrev, hChild, -⟩
  · cases hParent
  · rw [hChild] at hParent
    cases hParent
    exact hPrev.symm

theorem lineOf_step
    (hTree : TreeOk c params tree)
    {link above : Link}
    (hLink : link ∈ tree)
    (hParent : link.parent = some above.hash) :
    lineOf tree link.hash =
      link.unordered :: lineOf tree above.hash := by
  rw [lineOf, ancestry,
    hTree.grown.lineage_step hLink hParent, List.map_cons]
  rfl

/- All trees of a network have one root. -/
theorem lineOf_root
    {other : List Link}
    (hTree : TreeOk c params tree)
    (hOther : TreeOk c params other)
    {link : Link}
    (hLink : link ∈ tree)
    (hNone : link.parent = none) :
    lineOf other link.hash = lineOf tree link.hash := by
  rw [hTree.grown.root_unique hLink hTree.root_mem hNone
    rfl, lineOf, lineOf, ancestry, ancestry,
    hTree.grown.lineage_root hTree.root_mem rfl,
    hOther.grown.lineage_root hOther.root_mem rfl]

/- A line in another tree starts with the same block. -/
theorem exists_of_lineOf
    {other : List Link}
    (hTree : TreeOk c params tree)
    {link : Link}
    (hLink : link ∈ tree)
    (hLine :
      lineOf other link.hash = lineOf tree link.hash) :
    ∃ twin ∈ other, twin.unordered = link.unordered := by
  rcases hTree.grown.exists_lineage_eq_cons hLink with
    ⟨rest, hCons⟩
  rw [lineOf, lineOf, ancestry, ancestry, hCons,
    List.map_cons] at hLine
  rcases List.map_eq_cons_iff.mp hLine with
    ⟨twin, below, hTwin, hSame, -⟩
  refine ⟨twin, ?_, hSame⟩
  exact Arrival.mem_of_mem_lineage
    (by rw [hTwin]; exact List.mem_cons_self ..)

end TreeOk

/- A tree that has grown holds the lines it held before. -/
theorem lineOf_cons
    {tree : List Link}
    {link : Link}
    {hash : Hash256}
    (hFresh : ∀ other ∈ tree, other.hash ≠ link.hash)
    (hFound : ∃ other ∈ tree, other.hash = hash) :
    lineOf (link :: tree) hash = lineOf tree hash := by
  rw [lineOf, ancestry,
    Arrival.Grown.lineage_cons_of_mem hFresh hFound]
  rfl

------------------------------------------------------------
-- How A Tree Grows
------------------------------------------------------------

/- The same tree, or one with a new header on it. -/
def Grew
    (before after : List Link) : Prop :=
  after = before ∨
    ∃ link,
      after = link :: before ∧
        ∀ other ∈ before, other.hash ≠ link.hash

theorem Grew.lineOf_eq
    {before after : List Link}
    {hash : Hash256}
    (hGrew : Grew before after)
    (hFound : ∃ other ∈ before, other.hash = hash) :
    lineOf after hash = lineOf before hash ∧
      ∃ other ∈ after, other.hash = hash := by
  rcases hGrew with rfl | ⟨link, rfl, hFresh⟩
  · exact ⟨rfl, hFound⟩
  · refine ⟨lineOf_cons hFresh hFound, ?_⟩
    rcases hFound with ⟨other, hOther, hHash⟩
    exact ⟨other, List.mem_cons_of_mem _ hOther, hHash⟩

theorem BlockIndex.addHeader_grew
    {c : Crypto}
    {params : ChainParams}
    {index after : BlockIndex}
    {header : BlockHeader}
    {now : Int64}
    (hAdded :
      index.addHeader c params header now = .ok after) :
    Grew index.tree after.tree := by
  rcases addHeader_eq_ok.mp hAdded with
    ⟨rfl, -⟩ | ⟨hFresh, parent, -, -, -, -, rfl⟩
  · exact Or.inl rfl
  · exact Or.inr ⟨_, rfl,
      IndexOk.hash_ne_of_find_none hFresh⟩

/- The tree that offering a block leaves. -/
theorem BlockStep.tree
    {env : ChainEnv}
    {block : Block}
    {now : Int64}
    {state after : ChainState}
    (hIndex : IndexOk env.crypto env.params state.index)
    (hStep : BlockStep env block now state after) :
    ((∀ index,
        ¬Indexed env block.header now state index) ∧
      after = state) ∨
      ∃ index,
        Indexed env block.header now state index ∧
          after.index.tree = index.tree := by
  cases hStep with
  | unchanged hNot => exact Or.inl ⟨hNot, rfl⟩
  | known hIndexed => exact Or.inr ⟨_, hIndexed, rfl⟩
  | refused hIndexed hQuiet hAbsent hFails hEntry =>
      refine Or.inr ⟨_, hIndexed, ?_⟩
      rw [hEntry.frame.1]
      exact BlockIndex.recordFailure_tree
        (hIndex.addHeader hIndexed.added) _
  | stored hIndexed hQuiet hAbsent hPasses hBody hEntry =>
      refine Or.inr ⟨_, hIndexed, ?_⟩
      rw [hEntry.frame.1]
      exact BlockIndex.recordValidity_tree _ _ _

/- The links of a tree that a header was added to. -/
theorem BlockIndex.mem_tree_of_addHeader
    {c : Crypto}
    {params : ChainParams}
    {index after : BlockIndex}
    {header : BlockHeader}
    {now : Int64}
    {link : Link}
    (hAdded :
      index.addHeader c params header now = .ok after)
    (hLink : link ∈ after.tree) :
    link ∈ index.tree ∨
      link.header = header ∧ link.hash = header.hash c := by
  rcases addHeader_eq_ok.mp hAdded with
    ⟨rfl, -⟩ | ⟨-, parent, -, -, -, -, rfl⟩
  · exact Or.inl hLink
  · rcases List.mem_cons.mp hLink with rfl | hOld
    · exact Or.inr ⟨rfl, rfl⟩
    · exact Or.inl hOld

/- The bodies that offering a good block leaves. -/
theorem BlockStep.bodies
    {env : ChainEnv}
    {block : Block}
    {now : Int64}
    {state after : ChainState}
    (hPlan : Reliable env.plan)
    (hPasses :
      checkBlock env.crypto block env.params = .ok ())
    (hStep : BlockStep env block now state after) :
    (∀ hash,
      (state.db.records.blocks hash).isSome = true →
        (after.db.records.blocks hash).isSome = true) ∧
      (after = state ∨
        (after.db.records.blocks
          (block.hash env.crypto)).isSome = true) := by
  cases hStep with
  | unchanged => exact ⟨fun _ hSome => hSome, Or.inl rfl⟩
  | known hIndexed hQuiet hStored =>
      simp only [hQuiet.records]
      exact ⟨fun _ hSome => hSome, Or.inr hStored⟩
  | refused hIndexed hQuiet hAbsent hFails hEntry =>
      rw [hPasses] at hFails
      cases hFails
  | stored hIndexed hQuiet hAbsent hPasses hBody hEntry =>
      rw [hEntry.frame.2.2.2.2.1]
      simp only [(hBody.of_reliable hPlan).2.2,
        hQuiet.records, recordBlock]
      constructor
      · intro hash hSome
        by_cases hHash : hash = block.hash env.crypto
        · rw [hHash, Function.update_self]
          rfl
        · rw [Function.update_of_ne hHash]
          exact hSome
      · right
        rw [Function.update_self]
        rfl

------------------------------------------------------------
-- Nodes That Are Offered Whole Blocks
------------------------------------------------------------

/- An activation, or a block at a clock that admits it. -/
def OfferOf
    (blocks : List Block)
    (call : Call) : Prop :=
  call = .activateBestChain ∨
    ∃ block ∈ blocks, ∃ now,
      call = .acceptBlock block now ∧
        tooFarAhead block.header.timestamp now = false

/- The blocks are fine by themselves. -/
def AllPass
    (env : ChainEnv)
    (blocks : List Block) : Prop :=
  ∀ block ∈ blocks,
    checkBlock env.crypto block env.params = .ok ()

/- All is in order, and every body is stored. -/
structure FullState
    (env : ChainEnv)
    (blocks : List Block)
    (state : ChainState) : Prop where
  live : LiveState env state
  fair : FairState env {block | block ∈ blocks} state
  full :
    ∀ link ∈ state.index.tree,
      isStoredLink state.db.records.blocks link = true
  named :
    ∀ link ∈ state.index.tree,
      link.parent = none ∨
        ∃ block ∈ blocks, block.header = link.header

namespace FullState

variable {env : ChainEnv} {blocks : List Block}
variable {state after : ChainState}

theorem fresh
    (env : ChainEnv)
    (blocks : List Block) :
    FullState env blocks
      (.fresh env.crypto env.params) where
  live := .fresh env
  fair := .fresh env _
  full := by
    intro link hLink
    rcases List.mem_singleton.mp hLink with rfl
    rfl
  named := by
    intro link hLink
    rcases List.mem_singleton.mp hLink with rfl
    exact Or.inl rfl

theorem reset
    (hState : FullState env blocks state)
    (moments : List Moment) :
    FullState env blocks { state with moments } :=
  ⟨hState.live.reset moments, hState.fair.reset moments,
    hState.full, hState.named⟩

/- Whatever is indexed by a block has its body stored. -/
theorem blockStep
    (hPlan : Reliable env.plan)
    (hUnique :
      Unambiguous env {block | block ∈ blocks})
    (hState : FullState env blocks state)
    {block : Block}
    {now : Int64}
    (hBlock : block ∈ blocks)
    (hPasses :
      checkBlock env.crypto block env.params = .ok ())
    (hStep : BlockStep env block now state after) :
    FullState env blocks after := by
  have hFits :
      BodyFits env state (.acceptBlock block now) := by
    intro index error _ _ _ hFails
    rw [hPasses] at hFails
    cases hFails
  have hFair := hState.fair.blockStep hPlan.calm hUnique
    hBlock hFits hStep
  have hLive : LiveState env after :=
    ⟨hFair.sound,
      (hStep.faulted hPlan).trans hState.live.fine⟩
  rcases hStep.bodies hPlan hPasses with ⟨hMore, hHere⟩
  rcases hStep.tree hState.fair.sourced.index with
    ⟨-, rfl⟩ | ⟨index, hIndexed, hTree⟩
  · exact hState
  have hOldOrNew :
      ∀ link ∈ after.index.tree,
        link ∈ state.index.tree ∨
          link.header = block.header ∧
            link.hash = block.hash env.crypto := by
    rw [hTree]
    exact fun link hLink =>
      BlockIndex.mem_tree_of_addHeader hIndexed.added hLink
  refine ⟨hLive, hFair, ?_, ?_⟩
  · intro link hLink
    rcases hOldOrNew link hLink with hOld | ⟨-, hHash⟩
    · have hStored := hState.full link hOld
      rw [isStoredLink, Bool.or_eq_true] at hStored ⊢
      exact hStored.imp_right (hMore link.hash)
    · rcases hHere with rfl | hHere
      · exact hState.full link hLink
      · rw [isStoredLink, hHash, hHere, Bool.or_true]
  · intro link hLink
    rcases hOldOrNew link hLink with hOld | ⟨hHeader, -⟩
    · exact hState.named link hOld
    · exact Or.inr ⟨block, hBlock, hHeader.symm⟩

/- An activation leaves the tree and the bodies alone. -/
theorem activate
    (hPlan : Reliable env.plan)
    (hUnique :
      Unambiguous env {block | block ∈ blocks})
    (hState : FullState env blocks state) :
    FullState env blocks
        (Amarian.step env state .activateBestChain) ∧
      (Amarian.step env state
        .activateBestChain).index.tree =
        state.index.tree := by
  rcases hState.live.activated hPlan with
    ⟨hStart, hAfter, hActivated⟩
  have hPassed := (hActivated.ended hPlan hStart
    (.refl env _)).2
  have hFair := hState.fair.step hPlan.calm hUnique
    .activateBestChain (fun _ hNone => nomatch hNone) trivial
  refine ⟨⟨hAfter, hFair, ?_, ?_⟩, hPassed.tree⟩
  · rw [hPassed.tree, hPassed.blocks]
    exact hState.full
  · rw [hPassed.tree]
    exact hState.named

theorem step
    (hPlan : Reliable env.plan)
    (hUnique :
      Unambiguous env {block | block ∈ blocks})
    (hPasses : AllPass env blocks)
    (hState : FullState env blocks state)
    {call : Call}
    (hOffer : OfferOf blocks call) :
    FullState env blocks (Amarian.step env state call) ∧
      Grew state.index.tree
        (Amarian.step env state call).index.tree := by
  rcases hOffer with rfl | ⟨block, hBlock, now, rfl, -⟩
  · rcases hState.activate hPlan hUnique with
      ⟨hAfter, hTree⟩
    exact ⟨hAfter, Or.inl hTree⟩
  · have hStart := hState.reset [⟨state.db, state.index⟩]
    have hStep :
        BlockStep env block now
          { state with
            moments := [⟨state.db, state.index⟩] }
          (Amarian.step env state
            (.acceptBlock block now)) :=
      acceptBlock_spec block now _
    refine ⟨hStart.blockStep hPlan hUnique hBlock
      (hPasses block hBlock) hStep, ?_⟩
    rcases hStep.tree hStart.fair.sourced.index with
      ⟨-, hSame⟩ | ⟨index, hIndexed, hTree⟩
    · left
      exact congrArg (fun after => after.index.tree) hSame
    · have hGrew := BlockIndex.addHeader_grew hIndexed.added
      rw [← hTree] at hGrew
      exact hGrew

theorem runFrom
    (hPlan : Reliable env.plan)
    (hUnique :
      Unambiguous env {block | block ∈ blocks})
    (hPasses : AllPass env blocks)
    (hState : FullState env blocks state)
    {calls : List Call}
    (hOffers : ∀ call ∈ calls, OfferOf blocks call) :
    FullState env blocks
        (Amarian.runFrom env state calls) ∧
      ∀ hash,
        (∃ link ∈ state.index.tree, link.hash = hash) →
          lineOf (Amarian.runFrom env state
            calls).index.tree hash =
            lineOf state.index.tree hash := by
  induction calls generalizing state with
  | nil => exact ⟨hState, fun _ _ => rfl⟩
  | cons call calls ih =>
      rw [List.forall_mem_cons] at hOffers
      rcases hState.step hPlan hUnique hPasses hOffers.1 with
        ⟨hNext, hGrew⟩
      rcases ih hNext hOffers.2 with ⟨hLast, hLines⟩
      refine ⟨hLast, ?_⟩
      intro hash hFound
      rcases hGrew.lineOf_eq hFound with ⟨hSame, hStill⟩
      exact (hLines hash hStill).trans hSame

/- The block that a link above genesis was made from. -/
theorem header_of_hash
    (hState : FullState env blocks state)
    (hDistinct :
      Set.InjOn (Block.hash env.crypto)
        {block | block ∈ blocks})
    {link : Link}
    {block : Block}
    (hLink : link ∈ state.index.tree)
    (hAbove : link.parent ≠ none)
    (hBlock : block ∈ blocks)
    (hHash : link.hash = block.hash env.crypto) :
    link.header = block.header := by
  rcases hState.named link hLink with
    hNone | ⟨other, hOther, hHeader⟩
  · exact absurd hNone hAbove
  · have hSame : other = block := by
      refine hDistinct hOther hBlock ?_
      rw [← hHash, Block.hash, hHeader]
      exact ((hState.fair.sourced.index.tree.header_of_mem
        hLink).1).symm
    rw [← hHeader, hSame]

end FullState

------------------------------------------------------------
-- From One Node To The Other
------------------------------------------------------------

section Transfer

variable {env : ChainEnv}
variable {state : ChainState} {tree : List Link}

theorem viable_congr
    {blocks : Set Block}
    {other : List Link}
    {hash : Hash256}
    (hLine : lineOf other hash = lineOf tree hash) :
    Viable env blocks other hash ↔
      Viable env blocks tree hash := by
  unfold Viable
  rw [branch_eq_lineOf, branch_eq_lineOf, hLine]

/- Two links of one header on one line are one block. -/
theorem lineOf_eq_of_parent
    {other : List Link}
    (hTree : TreeOk env.crypto env.params tree)
    (hOther : TreeOk env.crypto env.params other)
    {link above twin : Link}
    (hLink : link ∈ tree)
    (hAbove : above ∈ tree)
    (hParent : link.parent = some above.hash)
    (hTwin : twin ∈ other)
    (hHeader : twin.header = link.header)
    (hLine :
      lineOf other above.hash = lineOf tree above.hash) :
    lineOf other link.hash = lineOf tree link.hash := by
  rcases hTree.child_cases hLink with
    rfl | ⟨first, hFirst, -, hPrev, hChild, -⟩
  · cases hParent
  have hFirstHash : first.hash = above.hash := by
    rw [hChild] at hParent
    exact Option.some_inj.mp hParent
  have hSame := hTree.grown.key_injective hFirst hAbove
    hFirstHash
  subst hSame
  rcases hTree.exists_of_lineOf hFirst hLine with
    ⟨mirror, hMirror, hUnordered⟩
  have hHashes : twin.hash = link.hash := by
    rw [(hOther.header_of_mem hTwin).1,
      (hTree.header_of_mem hLink).1, hHeader]
  rcases hOther.child_cases hTwin with
    rfl | ⟨second, hSecond, -, hBefore, hToo, -⟩
  · have hRoot := hTree.grown.key_injective hLink
      hTree.root_mem hHashes.symm
    rw [hRoot] at hParent
    cases hParent
  rcases Link.of_unordered hUnordered with
    ⟨-, hHash, hWork, -⟩
  have hSecondHash : second.hash = mirror.hash := by
    rw [hBefore, hHeader, ← hPrev, hHash]
  have hEq := hOther.grown.key_injective hSecond hMirror
    hSecondHash
  subst hEq
  have hTwinParent : twin.parent = some second.hash := by
    rw [hToo]
    rfl
  have hStart : twin.unordered = link.unordered := by
    rw [hToo, hChild, hHeader]
    simp only [Link.unordered, childLink, hWork, hHash]
  rw [← hHashes, hOther.lineOf_step hTwin hTwinParent,
    hHashes, hTree.lineOf_step hLink hParent, hStart,
    ← hLine, hHash]

/-
  A node that knows the parent of a header that can be
  applied takes the header in when it is offered.
-/
theorem header_offered
    {blocks : Set Block}
    (hFair : FairState env blocks state)
    (hTree : TreeOk env.crypto env.params tree)
    {link above : Link}
    {now : Int64}
    (hLink : link ∈ tree)
    (hAbove : above ∈ tree)
    (hParent : link.parent = some above.hash)
    (hViable : Viable env blocks tree link.hash)
    (hLine :
      lineOf state.index.tree above.hash =
        lineOf tree above.hash)
    (hSame :
      ∀ own ∈ state.index.tree, own.hash = link.hash →
        own.header = link.header)
    (hClock : tooFarAhead link.header.timestamp now = false) :
    ∃ index,
      Indexed env link.header now state index ∧
        lineOf index.tree link.hash =
          lineOf tree link.hash := by
  have hIndex := hFair.sourced.index
  have hHash : link.hash = link.header.hash env.crypto :=
    (hTree.header_of_mem hLink).1
  rcases hTree.exists_of_lineOf hAbove hLine with
    ⟨mirror, hMirror, hUnordered⟩
  have hMirrorHash := (Link.of_unordered hUnordered).2.1
  have hAdded :
      ∃ index,
        state.index.addHeader env.crypto env.params
            link.header now = .ok index ∧
          ∃ twin ∈ index.tree, twin.header = link.header := by
    cases hFound : state.index.find
        (link.header.hash env.crypto) with
    | some entry =>
        rcases IndexOk.mem_of_find hFound with
          ⟨hEntry, hEntryHash⟩
        refine ⟨state.index, BlockIndex.addHeader_eq_ok.mpr
          (Or.inl ⟨rfl, by rw [hFound]; rfl⟩),
          entry.toLink, IndexOk.link_mem hEntry, ?_⟩
        exact hSame _ (IndexOk.link_mem hEntry)
          (hEntryHash.trans hHash.symm)
    | none =>
        rcases hTree.child_cases hLink with
          rfl | ⟨first, hFirst, before, hPrev, hChild, hFine,
            hContext⟩
        · cases hParent
        have hFirstHash : first.hash = above.hash := by
          rw [hChild] at hParent
          exact Option.some_inj.mp hParent
        have hFirstAbove := hTree.grown.key_injective hFirst
          hAbove hFirstHash
        subst hFirstAbove
        rcases List.mem_map.mp hMirror with
          ⟨parent, hMember, rfl⟩
        have hPrevBlock :
            link.header.prevBlock = parent.hash := by
          rw [← hPrev, hMirrorHash]
        have hAboveViable := hViable.ancestor hTree hLink
          (by
            rw [ancestry, hTree.grown.lineage_step hLink
              hParent]
            exact List.mem_cons_of_mem _
              (hTree.grown.self_mem_lineage hAbove))
        have hIn := hFair.blamed.eligible_of_viable
          hIndex.tree hMirror (by
            rw [hMirrorHash, viable_congr hLine]
            exact hAboveViable)
        rw [hIndex.eligible_entry hMember] at hIn
        refine ⟨_, BlockIndex.addHeader_eq_ok.mpr (Or.inr
          ⟨hFound, parent, ?_, hIn, hFine, ?_, rfl⟩), _,
          List.mem_cons_self .., rfl⟩
        · rw [hPrevBlock]
          exact hIndex.find_of_mem hMember
        · have hLines :
              (state.index.lineage
                link.header.prevBlock).map
                  Link.unordered =
                (ancestry tree first.hash).map
                  Link.unordered := by
            rw [hPrevBlock, hMirrorHash]
            exact hLine
          rw [← headerContextFor_unordered,
            ← hUnordered, ← hLines,
            headerContextFor_unordered] at hContext
          exact contextualCheck_of_clock hClock hContext
  rcases hAdded with ⟨index, hAdded, twin, hTwin, hTwinSame⟩
  have hAfter := hIndex.addHeader hAdded
  have hGrew := BlockIndex.addHeader_grew hAdded
  have hResult : lineOf index.tree link.hash =
      lineOf tree link.hash := by
    refine lineOf_eq_of_parent hTree hAfter.tree hLink hAbove
      hParent hTwin hTwinSame ?_
    rw [(hGrew.lineOf_eq ⟨mirror, hMirror, hMirrorHash⟩).1]
    exact hLine
  have hTwinHash : twin.hash = link.hash := by
    rw [(hAfter.tree.header_of_mem hTwin).1, hHash,
      hTwinSame]
  have hEligible := (hFair.blamed_addHeader
    hAdded).eligible_of_viable hAfter.tree hTwin (by
      rw [hTwinHash, viable_congr hResult]
      exact hViable)
  rw [hTwinHash, hHash] at hEligible
  exact ⟨index, ⟨hAdded, hEligible⟩, hResult⟩

/- So with a block, whose header no other one has. -/
theorem line_offered
    {blocks : List Block}
    (hDistinct :
      Set.InjOn (Block.hash env.crypto)
        {block | block ∈ blocks})
    (hState : FullState env blocks state)
    (hTree : TreeOk env.crypto env.params tree)
    {link above : Link}
    {block : Block}
    {now : Int64}
    (hLink : link ∈ tree)
    (hAbove : above ∈ tree)
    (hParent : link.parent = some above.hash)
    (hViable :
      Viable env {block | block ∈ blocks} tree link.hash)
    (hLine :
      lineOf state.index.tree above.hash =
        lineOf tree above.hash)
    (hBlock : block ∈ blocks)
    (hHeader : block.header = link.header)
    (hClock : tooFarAhead block.header.timestamp now = false) :
    ∃ index,
      Indexed env block.header now state index ∧
        lineOf index.tree link.hash =
          lineOf tree link.hash := by
  have hIndex := hState.fair.sourced.index
  have hHash : link.hash = block.hash env.crypto := by
    rw [(hTree.header_of_mem hLink).1, Block.hash, hHeader]
  rw [hHeader] at hClock ⊢
  refine header_offered hState.fair hTree hLink hAbove hParent
    hViable hLine ?_ hClock
  intro own hOwn hOwnHash
  rw [← hHeader]
  refine hState.header_of_hash hDistinct hOwn ?_ hBlock
    (hOwnHash.trans hHash)
  -- else it would be genesis, which has no parent
  intro hNone
  have hRoot := hIndex.tree.grown.root_unique hOwn
    hIndex.tree.root_mem hNone rfl
  have hLinkRoot := hTree.grown.key_injective hLink
    hTree.root_mem (by rw [← hOwnHash, hRoot])
  rw [hLinkRoot] at hParent
  cases hParent

/- Its line is in the tree from then on. -/
theorem line_accepted
    {blocks : List Block}
    (hState : FullState env blocks state)
    {link : Link}
    {block : Block}
    {now : Int64}
    {index : BlockIndex}
    (hIndexed : Indexed env block.header now state index)
    (hLine :
      lineOf index.tree link.hash =
        lineOf tree link.hash) :
    lineOf
        (step env state
          (.acceptBlock block now)).index.tree link.hash =
      lineOf tree link.hash := by
  have hStep :
      BlockStep env block now
        { state with
          moments := [⟨state.db, state.index⟩] }
        (step env state (.acceptBlock block now)) :=
    acceptBlock_spec block now _
  have hReset :=
    (hState.reset [⟨state.db, state.index⟩]).fair.sourced
  rcases hStep.tree hReset.index with
    ⟨hNot, -⟩ | ⟨other, hOther, hGrown⟩
  · exact absurd ⟨hIndexed.added, hIndexed.eligible⟩
      (hNot index)
  · have hEq := hOther.added
    simp only [hIndexed.added, Except.ok.injEq] at hEq
    rw [hGrown, ← hEq]
    exact hLine

end Transfer

------------------------------------------------------------
-- Convergence
------------------------------------------------------------

/- A block is offered after its parent, if that is offered. -/
def ParentsFirst
    (c : Crypto)
    (blocks : List Block) :
    List Block → List Call → Prop
  | _, [] => True
  | before, .acceptBlock block _ :: calls =>
      (∀ parent ∈ blocks,
        parent.hash c = block.header.prevBlock →
          parent ∈ before) ∧
        ParentsFirst c blocks (block :: before) calls
  | before, _ :: calls =>
      ParentsFirst c blocks before calls

instance ParentsFirst.decidable
    (c : Crypto)
    (blocks : List Block) :
    (before : List Block) → (calls : List Call) →
      Decidable (ParentsFirst c blocks before calls)
  | _, [] => .isTrue trivial
  | before, .acceptBlock block _ :: calls =>
      @instDecidableAnd _ _ inferInstance
        (decidable c blocks (block :: before) calls)
  | before, .acceptHeader _ _ :: calls =>
      decidable c blocks before calls
  | before, .activateBestChain :: calls =>
      decidable c blocks before calls

/- An entry that connects, and none that connects has more
   work. -/
def MostWork
    (env : ChainEnv)
    (state : ChainState)
    (entry : BlockIndexEntry) : Prop :=
  entry ∈ state.index.entries ∧
    Connects env state entry.hash ∧
    ∀ other ∈ state.index.entries,
      Connects env state other.hash →
        entry.totalWork.less other.totalWork = false

/- A run that is offered exactly these blocks. -/
structure Offers
    (env : ChainEnv)
    (blocks : List Block)
    (calls : List Call) : Prop where
  only : ∀ call ∈ calls, OfferOf blocks call
  all :
    ∀ block ∈ blocks, ∃ now,
      Call.acceptBlock block now ∈ calls
  ordered : ParentsFirst env.crypto blocks [] calls
  ends : ∃ front, calls = front ++ [.activateBestChain]

theorem ParentsFirst.split
    {c : Crypto}
    {blocks before : List Block}
    {front back : List Call}
    {block parent : Block}
    {now : Int64}
    (hOrdered :
      ParentsFirst c blocks before
        (front ++ .acceptBlock block now :: back))
    (hParent : parent ∈ blocks)
    (hHash : parent.hash c = block.header.prevBlock) :
    parent ∈ before ∨ parent ∈ offeredBlocks front := by
  induction front generalizing before with
  | nil => exact Or.inl (hOrdered.1 parent hParent hHash)
  | cons call front ih =>
      cases call with
      | acceptHeader header now =>
          exact ih hOrdered
      | acceptBlock other now =>
          rcases ih hOrdered.2 with hBefore | hFront
          · rcases List.mem_cons.mp hBefore with rfl | hOld
            · exact Or.inr (List.mem_cons_self ..)
            · exact Or.inl hOld
          · exact Or.inr (List.mem_cons_of_mem _ hFront)
      | activateBestChain => exact ih hOrdered

theorem run_append
    (env : ChainEnv)
    (front back : List Call) :
    run env (front ++ back) =
      runFrom env (run env front) back :=
  List.foldl_append

section Converge

variable {env : ChainEnv} {blocks : List Block}
variable {tree : List Link}

/- Where in a run a block was offered. -/
theorem exists_offer
    {calls : List Call}
    {block : Block}
    (hBlock : block ∈ offeredBlocks calls) :
    ∃ front now back,
      calls = front ++ .acceptBlock block now :: back := by
  rcases List.mem_filterMap.mp hBlock with
    ⟨call, hCall, hOffer⟩
  rcases List.append_of_mem hCall with ⟨front, back, rfl⟩
  cases call with
  | acceptHeader header now => cases hOffer
  | acceptBlock offered now =>
      cases hOffer
      exact ⟨front, now, back, rfl⟩
  | activateBestChain => cases hOffer

/- Distinct blocks with distinct hashes need no merkle root. -/
theorem unambiguous_of_injOn
    (hDistinct :
      Set.InjOn (Block.hash env.crypto)
        {block | block ∈ blocks}) :
    Unambiguous env {block | block ∈ blocks} :=
  fun _ hFirst _ hSecond _ _ hHash =>
    hDistinct hFirst hSecond hHash

/-
  A block that can be applied, by the tree of one node, is
  known to any other node once it is offered there.
-/
theorem line_indexed
    (hPlan : Reliable env.plan)
    (hPasses : AllPass env blocks)
    (hDistinct :
      Set.InjOn (Block.hash env.crypto)
        {block | block ∈ blocks})
    (hTree : TreeOk env.crypto env.params tree)
    (hNamed :
      ∀ link ∈ tree,
        link.parent = none ∨
          ∃ block ∈ blocks, block.header = link.header)
    {calls : List Call}
    (hOffers : Offers env blocks calls)
    {link : Link}
    (hLink : link ∈ tree)
    (hViable :
      Viable env {block | block ∈ blocks} tree link.hash)
    {front back : List Call}
    (hCalls : calls = front ++ back)
    (hOffered :
      link.parent = none ∨
        ∃ block ∈ offeredBlocks front,
          block.header = link.header) :
    lineOf (run env front).index.tree link.hash =
      lineOf tree link.hash := by
  have hUnique := unambiguous_of_injOn hDistinct
  have hState :
      ∀ {front back : List Call},
        calls = front ++ back →
          FullState env blocks (run env front) := by
    intro front back hCalls
    refine (FullState.runFrom hPlan hUnique hPasses
      (.fresh env blocks) ?_).1
    intro call hCall
    apply hOffers.only
    rw [hCalls]
    exact List.mem_append_left _ hCall
  revert hViable front back
  refine hTree.grown.ancestor_induction
    (motive := fun link =>
      Viable env {block | block ∈ blocks} tree link.hash →
        ∀ {front back : List Call},
          calls = front ++ back →
            (link.parent = none ∨
              ∃ block ∈ offeredBlocks front,
                block.header = link.header) →
              lineOf (run env front).index.tree link.hash =
                lineOf tree link.hash)
    ?_ ?_ link hLink
  · intro root hRoot hNone _ front back hCalls _
    exact hTree.lineOf_root
      (hState hCalls).fair.sourced.index.tree hRoot hNone
  · intro link hLink above hAbove hParent ih hViable front
      back hCalls hOffered
    rcases hOffered with hNone | ⟨block, hBlock, hHeader⟩
    · rw [hNone] at hParent
      cases hParent
    rcases exists_offer hBlock with
      ⟨before, now, rest, hFront⟩
    have hSplit :
        calls =
          before ++ .acceptBlock block now ::
            (rest ++ back) := by
      rw [hCalls, hFront, List.append_assoc, List.cons_append]
    have hOnly :
        ∀ call ∈ .acceptBlock block now :: (rest ++ back),
          OfferOf blocks call := by
      intro call hCall
      apply hOffers.only
      rw [hSplit]
      exact List.mem_append_right _ hCall
    rcases hOnly _ (List.mem_cons_self ..) with
      hNone | ⟨_, hMember, _, hSame, hClock⟩
    · cases hNone
    cases hSame
    have hAboveViable := hViable.ancestor hTree hLink (by
      rw [ancestry, hTree.grown.lineage_step hLink hParent]
      exact List.mem_cons_of_mem _
        (hTree.grown.self_mem_lineage hAbove))
    -- the parent came earlier, so its line is there
    have hEarlier :
        above.parent = none ∨
          ∃ parent ∈ offeredBlocks before,
            parent.header = above.header := by
      refine (hNamed above hAbove).imp_right ?_
      rintro ⟨parent, hFound, hAboveHeader⟩
      refine ⟨parent, ?_, hAboveHeader⟩
      have hPrev :
          parent.hash env.crypto =
            block.header.prevBlock := by
        rw [hHeader, hTree.prevBlock_eq hLink hParent,
          (hTree.header_of_mem hAbove).1, Block.hash,
          hAboveHeader]
      have hOrdered := hOffers.ordered
      rw [hSplit] at hOrdered
      rcases hOrdered.split hFound hPrev with hNil | hIn
      · cases hNil
      · exact hIn
    rcases line_offered hDistinct (hState hSplit) hTree
      hLink hAbove hParent hViable
      (ih hAboveViable hSplit hEarlier) hMember hHeader
      hClock with ⟨index, hIndexed, hIndexLine⟩
    have hAccepted :=
      line_accepted (hState hSplit) hIndexed hIndexLine
    have hThere := ((hState hSplit).step hPlan hUnique
      hPasses (hOnly _ (List.mem_cons_self ..))).1
    rcases hTree.exists_of_lineOf hLink hAccepted with
      ⟨twin, hTwin, hUnordered⟩
    have hLater := (hThere.runFrom hPlan hUnique hPasses
      fun call hCall => hOnly call (List.mem_cons_of_mem _
        (List.mem_append_left back hCall))).2 link.hash
      ⟨twin, hTwin, (Link.of_unordered hUnordered).2.1⟩
    rw [hFront, run_append]
    exact hLater.trans hAccepted

theorem Link.atLeast_work
    {first second : Link}
    (hLeast : first.atLeast second) :
    first.totalWork.less second.totalWork = false := by
  rw [← Bool.not_eq_true]
  intro hLess
  rcases hLeast with rfl | hMore | ⟨hEq, -⟩
  · simp at hLess
  · have hSelf := Work.less_trans hLess hMore
    simp at hSelf
  · rw [hEq] at hLess
    simp at hLess

namespace FullState

variable {state : ChainState}

/- With every body stored, what can be applied connects. -/
theorem connects_of_viable
    (hUnique :
      Unambiguous env {block | block ∈ blocks})
    (hState : FullState env blocks state)
    {link : Link}
    (hLink : link ∈ state.index.tree)
    (hViable :
      Viable env {block | block ∈ blocks}
        state.index.tree link.hash) :
    Connects env state link.hash := by
  have hTree := hState.fair.sourced.index.tree
  have hBodies := hState.fair.sourced.bodies
  revert hViable
  refine hTree.grown.ancestor_induction
    (motive := fun link =>
      Viable env {block | block ∈ blocks}
          state.index.tree link.hash →
        Connects env state link.hash)
    ?_ ?_ link hLink
  · exact fun root hRoot hNone _ =>
      Connects.root hTree hRoot hNone
  · intro link hLink above hAbove hParent ih hViable
    rcases hViable.step hTree hLink hAbove hParent with
      ⟨bodies, coins, block, result, after, hOthers, hCoins,
        hBlock, hConnect⟩
    rcases ih ⟨bodies, coins, hOthers, hCoins⟩ with
      ⟨before, hBefore⟩
    rcases hBodies.replay_eq hUnique hOthers hBefore hCoins
    have hStored := hState.full link hLink
    rw [isStoredLink, hParent, Option.isNone_some,
      Bool.false_or] at hStored
    rcases Option.isSome_iff_exists.mp hStored with
      ⟨own, hOwn⟩
    rcases hBodies.eq hUnique hOthers hOwn hBlock
    rcases hTree.exists_branch_eq_cons hAbove with
      ⟨below, hCons⟩
    rw [hCons] at hBefore
    refine ⟨after, ?_⟩
    rw [hTree.branch_step hLink hParent, hCons]
    exact replay_cons.mpr ⟨_, _, result, hBefore, hOwn,
      hConnect⟩

theorem viable_of_connects
    (hState : FullState env blocks state)
    {hash : Hash256}
    (hConnects : Connects env state hash) :
    Viable env {block | block ∈ blocks} state.index.tree
      hash := by
  rcases hConnects with ⟨coins, hCoins⟩
  exact ⟨_, coins, hState.fair.sourced.bodies, hCoins⟩

/- An activation ends on the best block in the running. -/
theorem tip_best
    (hPlan : Reliable env.plan)
    (hUnique :
      Unambiguous env {block | block ∈ blocks})
    (hState : FullState env blocks state) :
    let after := Amarian.step env state .activateBestChain
    ∃ tip ∈ after.index.tree,
      tip.hash = after.tip ∧
        ∀ link ∈ after.index.tree,
          after.index.eligible link.hash = true →
            tip.atLeast link := by
  intro after
  have hAfter := (hState.activate hPlan hUnique).1
  rcases hState.live.activated hPlan with
    ⟨hStart, -, hActivated⟩
  rcases hActivated.ended hPlan hStart (.refl env _) with
    ⟨hEnded, hPassed⟩
  cases hEnded with
  | nothing hAll =>
      have hGenesis := hAfter.fair.genesis_eligible
      rw [hAll] at hGenesis
      cases hGenesis
  | @stood best top tip hTip hHash hIn hBest hLine hAll
      hAttain hLeast =>
      have hTree := hState.fair.sourced.index.tree
      have hOld : best ∈ state.index.tree := by
        rw [hPassed.tree] at hBest
        exact hBest
      have hComplete :
          complete state.index.tree
            state.db.records.blocks best.hash = true := by
        rw [complete, List.all_eq_true]
        intro link hLink
        exact hState.full link
          (Arrival.mem_of_mem_lineage hLink)
      have hTop : top = best := by
        rcases hTree.grown.exists_lineage_eq_cons hOld with
          ⟨below, hCons⟩
        rw [attain, ancestry, hCons, List.find?_cons,
          hComplete, Option.some_inj] at hAttain
        exact hAttain.symm
      rw [hTop] at hLeast
      refine ⟨tip, hTip, hHash, ?_⟩
      intro link hLink hEligible
      exact Link.atLeast_trans hLeast
        (hAll link hLink hEligible)

/- The best of what can be applied has the most work of what
   connects. -/
theorem mostWork
    (hUnique :
      Unambiguous env {block | block ∈ blocks})
    (hState : FullState env blocks state)
    {entry : BlockIndexEntry}
    (hEntry : entry ∈ state.index.entries)
    (hViable :
      Viable env {block | block ∈ blocks}
        state.index.tree entry.hash)
    (hBest :
      ∀ link ∈ state.index.tree,
        Viable env {block | block ∈ blocks}
            state.index.tree link.hash →
          entry.toLink.atLeast link) :
    MostWork env state entry := by
  refine ⟨hEntry, ?_, ?_⟩
  · exact hState.connects_of_viable hUnique
      (List.mem_map_of_mem hEntry) hViable
  · intro other hOther hConnects
    exact Link.atLeast_work
      (hBest other.toLink (List.mem_map_of_mem hOther)
        (hState.viable_of_connects hConnects))

end FullState

namespace Offers

variable {calls others : List Call}

/- The last call is an activation, and it ends on the best. -/
theorem final
    (hPlan : Reliable env.plan)
    (hPasses : AllPass env blocks)
    (hUnique :
      Unambiguous env {block | block ∈ blocks})
    (hOffers : Offers env blocks calls) :
    FullState env blocks (run env calls) ∧
      ∃ tip ∈ (run env calls).index.tree,
        tip.hash = (run env calls).tip ∧
          Viable env {block | block ∈ blocks}
            (run env calls).index.tree tip.hash ∧
          ∀ link ∈ (run env calls).index.tree,
            Viable env {block | block ∈ blocks}
                (run env calls).index.tree link.hash →
              tip.atLeast link := by
  have hState := (FullState.runFrom hPlan hUnique hPasses
    (.fresh env blocks) hOffers.only).1
  refine ⟨hState, ?_⟩
  rcases hOffers.ends with ⟨front, rfl⟩
  have hFront := (FullState.runFrom hPlan hUnique hPasses
    (.fresh env blocks) fun call hCall =>
      hOffers.only call (List.mem_append_left _ hCall)).1
  rcases hFront.tip_best hPlan hUnique with
    ⟨tip, hTip, hHash, hBest⟩
  rw [run_append]
  change FullState env blocks (runFrom env _ _) at hState
  rw [runFrom, List.foldl_append] at hState
  refine ⟨tip, hTip, hHash, ?_, ?_⟩
  · exact hState.viable_of_connects
      (hState.live.connects_tip hPlan hHash)
  · intro link hLink hViable
    exact hBest link hLink
      (hState.fair.blamed.eligible_of_viable
        hState.fair.sourced.index.tree hLink hViable)

/- What one node can apply, the other can apply as well. -/
theorem transfer
    (hPlan : Reliable env.plan)
    (hPasses : AllPass env blocks)
    (hDistinct :
      Set.InjOn (Block.hash env.crypto)
        {block | block ∈ blocks})
    (hOffers : Offers env blocks calls)
    (hOthers : Offers env blocks others)
    {link : Link}
    (hLink : link ∈ (run env calls).index.tree)
    (hViable :
      Viable env {block | block ∈ blocks}
        (run env calls).index.tree link.hash) :
    lineOf (run env others).index.tree link.hash =
        lineOf (run env calls).index.tree link.hash ∧
      ∃ twin ∈ (run env others).index.tree,
        twin.hash = link.hash ∧
          twin.totalWork = link.totalWork ∧
          Viable env {block | block ∈ blocks}
            (run env others).index.tree twin.hash := by
  have hUnique := unambiguous_of_injOn hDistinct
  have hState := (hOffers.final hPlan hPasses hUnique).1
  have hTree := hState.fair.sourced.index.tree
  have hLine := line_indexed hPlan hPasses hDistinct hTree
    hState.named hOthers hLink hViable
    (List.append_nil others).symm (by
      refine (hState.named link hLink).imp_right ?_
      rintro ⟨block, hBlock, hHeader⟩
      rcases hOthers.all block hBlock with ⟨now, hCall⟩
      exact ⟨block, List.mem_filterMap.mpr
        ⟨_, hCall, rfl⟩, hHeader⟩)
  refine ⟨hLine, ?_⟩
  rcases hTree.exists_of_lineOf hLink hLine with
    ⟨twin, hTwin, hUnordered⟩
  rcases Link.of_unordered hUnordered with
    ⟨-, hHash, hWork, -⟩
  refine ⟨twin, hTwin, hHash, hWork, ?_⟩
  rw [hHash, viable_congr hLine]
  exact hViable

end Offers

end Converge

/-
  Two nodes that are offered the same blocks, each in its
  own order, end on tips that have the most work of all that
  connects, and so equal work; and on the same tip with the
  same coins if only one entry has the most.
-/
theorem nodes_converge
    (env : ChainEnv)
    (hPlan : Reliable env.plan)
    (blocks : List Block)
    (hPasses :
      ∀ block ∈ blocks,
        checkBlock env.crypto block env.params = .ok ())
    (hDistinct :
      Set.InjOn (Block.hash env.crypto)
        {block | block ∈ blocks})
    (first second : List Call)
    (hFirst : Offers env blocks first)
    (hSecond : Offers env blocks second) :
    ∃ tip other,
      (run env first).index.find (run env first).tip =
          some tip ∧
        (run env second).index.find (run env second).tip =
          some other ∧
        MostWork env (run env first) tip ∧
        MostWork env (run env second) other ∧
        tip.totalWork = other.totalWork ∧
        ((∃! entry, MostWork env (run env first) entry) →
          (run env second).tip = (run env first).tip ∧
            ∀ outpoint,
              (run env second).utxo outpoint =
                (run env first).utxo outpoint) := by
  have hUnique := unambiguous_of_injOn hDistinct
  rcases hFirst.final hPlan hPasses hUnique with
    ⟨hState, tip, hTip, hTipHash, hTipViable, hTipBest⟩
  rcases hSecond.final hPlan hPasses hUnique with
    ⟨hOther, other, hOtherTip, hOtherHash, hOtherViable,
      hOtherBest⟩
  rcases hFirst.transfer hPlan hPasses hDistinct hSecond hTip
    hTipViable with
    ⟨hLine, twin, hTwin, hTwinHash, hTwinWork, hTwinViable⟩
  rcases hSecond.transfer hPlan hPasses hDistinct hFirst
    hOtherTip hOtherViable with
    ⟨-, mirror, hMirror, hMirrorHash, hMirrorWork,
      hMirrorViable⟩
  have hWork : tip.totalWork = other.totalWork := by
    have hNotLess := Link.atLeast_work
      (hTipBest mirror hMirror hMirrorViable)
    have hNotMore := Link.atLeast_work
      (hOtherBest twin hTwin hTwinViable)
    rw [hMirrorWork] at hNotLess
    rw [hTwinWork] at hNotMore
    rcases Work.less_trichotomy tip.totalWork
      other.totalWork with hLess | hEq | hMore
    · rw [hLess] at hNotLess
      cases hNotLess
    · exact hEq
    · rw [hMore] at hNotMore
      cases hNotMore
  rcases List.mem_map.mp hTip with ⟨entry, hEntry, rfl⟩
  rcases List.mem_map.mp hOtherTip with
    ⟨rival, hRival, rfl⟩
  have hMost :=
    hState.mostWork hUnique hEntry hTipViable hTipBest
  refine ⟨entry, rival, ?_, ?_, hMost, ?_, hWork, ?_⟩
  · rw [← hTipHash]
    exact hState.fair.sourced.index.find_of_mem hEntry
  · rw [← hOtherHash]
    exact hOther.fair.sourced.index.find_of_mem hRival
  · exact hOther.mostWork hUnique hRival hOtherViable
      hOtherBest
  intro hOnly
  rcases List.mem_map.mp hMirror with
    ⟨same, hSame, rfl⟩
  -- what the second node ends on has the most work here too
  have hAlso : MostWork env (run env first) same := by
    refine ⟨hSame, ?_, ?_⟩
    · exact hState.connects_of_viable hUnique hMirror
        hMirrorViable
    · intro found hFound hConnects
      have hEqual : same.totalWork = entry.totalWork :=
        hMirrorWork.trans hWork.symm
      rw [hEqual]
      exact hMost.2.2 found hFound hConnects
  have hEq := hOnly.unique hAlso hMost
  subst hEq
  have hTips : (run env second).tip = (run env first).tip := by
    rw [← hOtherHash, ← hMirrorHash, hTipHash]
  refine ⟨hTips, fun outpoint => ?_⟩
  have hCoins := hState.live.sound.synced hPlan.calm
  have hOthers := hOther.live.sound.synced hPlan.calm
  rw [hState.live.chain_eq hTipHash, branch_eq_lineOf,
    ← hLine, ← branch_eq_lineOf] at hCoins
  rw [hOther.live.chain_eq hOtherHash, ← hMirrorHash]
    at hOthers
  rw [hOther.fair.sourced.bodies.replay_eq hUnique
    hState.fair.sourced.bodies hOthers hCoins]

namespace Sample

/- Blocks of three branches, one of which fails. -/
def offered : List Block :=
  [a1, b1, b2, c1, c2]

/- Every block, then one activation. -/
def firstOrder : List Call :=
  [.acceptBlock a1 genesisTimestamp,
    .acceptBlock b1 genesisTimestamp,
    .acceptBlock b2 genesisTimestamp,
    .acceptBlock c1 genesisTimestamp,
    .acceptBlock c2 genesisTimestamp, .activateBestChain]

/- Another order, with activations in between. -/
def secondOrder : List Call :=
  [.acceptBlock c1 genesisTimestamp, .activateBestChain,
    .acceptBlock b1 genesisTimestamp,
    .acceptBlock b2 genesisTimestamp, .activateBestChain,
    .acceptBlock a1 genesisTimestamp,
    .acceptBlock c2 genesisTimestamp, .activateBestChain]

theorem offers_firstOrder :
    Offers env offered firstOrder where
  only := by
    simp only [firstOrder, List.forall_mem_cons]
    refine ⟨?_, ?_, ?_, ?_, ?_, Or.inl rfl, by simp⟩
    all_goals
      exact Or.inr ⟨_, by simp [offered], _, rfl, by decide⟩
  all := by
    intro block hBlock
    refine ⟨genesisTimestamp, ?_⟩
    simp only [offered, List.mem_cons, List.not_mem_nil,
      or_false] at hBlock
    rcases hBlock with rfl | rfl | rfl | rfl | rfl
    all_goals simp [firstOrder]
  ordered := by rw [env_eq]; decide +kernel
  ends := ⟨firstOrder.dropLast, rfl⟩

theorem offers_secondOrder :
    Offers env offered secondOrder where
  only := by
    simp only [secondOrder, List.forall_mem_cons]
    refine ⟨?_, Or.inl rfl, ?_, ?_, Or.inl rfl, ?_, ?_,
      Or.inl rfl, by simp⟩
    all_goals
      exact Or.inr ⟨_, by simp [offered], _, rfl, by decide⟩
  all := by
    intro block hBlock
    refine ⟨genesisTimestamp, ?_⟩
    simp only [offered, List.mem_cons, List.not_mem_nil,
      or_false] at hBlock
    rcases hBlock with rfl | rfl | rfl | rfl | rfl
    all_goals simp [secondOrder]
  ordered := by rw [env_eq]; decide +kernel
  ends := ⟨secondOrder.dropLast, rfl⟩

theorem firstOrder_best :
    ((run env firstOrder).index.find c2Hash).any
        (fun best =>
          (replay env.crypto env.params
              (run env firstOrder).db.records.blocks
              (branch (run env firstOrder).index.tree
                c2Hash)).isSome &&
          (run env firstOrder).index.entries.all fun entry =>
            !best.totalWork.less entry.totalWork &&
              (decide (entry.hash = c2Hash) ||
                entry.totalWork.less best.totalWork ||
                (replay env.crypto env.params
                  (run env firstOrder).db.records.blocks
                  (branch (run env firstOrder).index.tree
                    entry.hash)).isNone)) = true := by
  rw [env_eq]
  decide +kernel

/- `b2` has as much work as `c2`, but it does not connect. -/
theorem firstOrder_onlyMost :
    ∃! entry, MostWork env (run env firstOrder) entry := by
  rcases (Option.any_eq_true _ _).mp firstOrder_best with
    ⟨best, hFound, hBest⟩
  rw [Bool.and_eq_true, List.all_eq_true] at hBest
  rcases hBest with ⟨hCoins, hOthers⟩
  rcases IndexOk.mem_of_find hFound with ⟨hMem, hHash⟩
  have hConnects :
      Connects env (run env firstOrder) best.hash := by
    rw [hHash]
    exact Option.isSome_iff_exists.mp hCoins
  refine ⟨best, ⟨hMem, hConnects, ?_⟩, ?_⟩
  · intro other hOther _
    have hNotMore := hOthers other hOther
    rw [Bool.and_eq_true, Bool.not_eq_true'] at hNotMore
    exact hNotMore.1
  · rintro entry ⟨hEntry, ⟨coins, hReplay⟩, hMost⟩
    have hNotLess := hMost best hMem hConnects
    have hCase := hOthers entry hEntry
    rw [hReplay] at hCase
    simp only [hNotLess, Option.isNone_some, Bool.or_false,
      Bool.and_eq_true, decide_eq_true_eq] at hCase
    have hSelf :=
      (Sourced.run env firstOrder).index.find_of_mem hEntry
    rw [hCase.2, hFound] at hSelf
    exact (Option.some.inj hSelf).symm

/- Two orders of the same blocks, and one tip. -/
theorem nodes_converge_orders :
    ∃ tip other,
      (run env firstOrder).index.find
            (run env firstOrder).tip =
          some tip ∧
        (run env secondOrder).index.find
            (run env secondOrder).tip =
          some other ∧
        MostWork env (run env firstOrder) tip ∧
        MostWork env (run env secondOrder) other ∧
        tip.totalWork = other.totalWork ∧
        (run env secondOrder).tip = (run env firstOrder).tip ∧
        ∀ outpoint,
          (run env secondOrder).utxo outpoint =
            (run env firstOrder).utxo outpoint := by
  have hPasses :
      ∀ block ∈ offered,
        checkBlock env.crypto block env.params = .ok () := by
    rw [env_eq]
    decide +kernel
  have hDistinct :
      ∀ block ∈ offered, ∀ other ∈ offered,
        block.hash env.crypto = other.hash env.crypto →
          block = other := by
    rw [env_eq]
    decide +kernel
  rcases nodes_converge env (fun _ _ => rfl) offered hPasses
      (fun block hBlock other hOther =>
        hDistinct block hBlock other hOther)
      firstOrder secondOrder offers_firstOrder
      offers_secondOrder with
    ⟨tip, other, hTip, hOther, hMost, hAlso, hWork, hSame⟩
  exact ⟨tip, other, hTip, hOther, hMost, hAlso, hWork,
    hSame firstOrder_onlyMost⟩

end Sample

end Amarian
