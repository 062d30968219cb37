import Amarian.Chain.ActiveChain
import Amarian.Chain.Offering
import Amarian.Consensus.Rules
import Amarian.Primitives.Codec

/-
  Nodes of one network that only ever met valid blocks.

  The valid blocks make up a tree of their own.  Whatever
  such a node has indexed is a piece of that tree, so that it
  takes every further block in whose parent it knows.

  Key definitions include:
    * `ValidBlocks`
    * `ValidBlocks.Timely`
    * `Member`

  Key theorems include:
    * `Member.header_indexed`
    * `Member.acceptHeader`
    * `Member.acceptBlock`
    * `Member.activate`
    * `Member.run`
-/

------------------------------------------------------------
-- Valid Blocks
------------------------------------------------------------

namespace Amarian

/- Validity depends on the network, not on the store. -/
def ChainEnv.plain
    (c : Crypto)
    (params : ChainParams) : ChainEnv :=
  { crypto := c
    params := params
    hasSink := false
    plan := fun _ _ => false }

/- Every header can be applied, with bodies that decode. -/
structure ValidBlocks
    (c : Crypto)
    (params : ChainParams) where
  tree : List Link
  blocks : Set Block
  treeOk : TreeOk c params tree
  viable :
    ∀ link ∈ tree,
      Viable (.plain c params) blocks tree link.hash
  placed :
    ∀ block ∈ blocks,
      ∃ link ∈ tree, link.header = block.header
  passes :
    ∀ block ∈ blocks, checkBlock c block params = .ok ()
  fits : ∀ block ∈ blocks, block.Fits params.blockLimits
  unambiguous : Unambiguous (.plain c params) blocks

/- An hour from now can be counted. -/
def ClockFits
    (now : Int64) : Prop :=
  FitsInt64 (now.toInt + maxFutureBlockSeconds.toInt)

namespace ValidBlocks

variable {c : Crypto} {params : ChainParams}
variable {valid : ValidBlocks c params} {now : Int64}

/- The header is valid, and not too far ahead of the clock. -/
def Timely
    (valid : ValidBlocks c params)
    (now : Int64)
    (header : BlockHeader) : Prop :=
  ∃ link ∈ valid.tree,
    link.header = header ∧
      (link.parent = none ∨
        tooFarAhead header.timestamp now = false)

theorem Timely.later
    {later : Int64}
    {header : BlockHeader}
    (hRoom : ClockFits later)
    (hLater : now ≤ later)
    (hTimely : valid.Timely now header) :
    valid.Timely later header := by
  rcases hTimely with ⟨link, hLink, hHeader, hClock⟩
  exact ⟨link, hLink, hHeader,
    hClock.imp_right (tooFarAhead_later hRoom hLater)⟩

/- No two of the headers have one hash. -/
theorem header_unique
    {first second : Link}
    (hFirst : first ∈ valid.tree)
    (hSecond : second ∈ valid.tree)
    (hHash :
      first.header.hash c = second.header.hash c) :
    first = second := by
  apply valid.treeOk.grown.key_injective hFirst hSecond
  rw [(valid.treeOk.header_of_mem hFirst).1,
    (valid.treeOk.header_of_mem hSecond).1, hHash]

end ValidBlocks

------------------------------------------------------------
-- Members
------------------------------------------------------------

variable {env : ChainEnv}
variable {valid : ValidBlocks env.crypto env.params}
variable {now : Int64} {state after : ChainState}

/- The header is indexed. -/
def ChainState.Knows
    (state : ChainState)
    (hash : Hash256) : Prop :=
  ∃ link ∈ state.index.tree, link.hash = hash

/- A node without faults that only met valid blocks. -/
structure Member
    (valid : ValidBlocks env.crypto env.params)
    (now : Int64)
    (state : ChainState) : Prop where
  live : LiveState env state
  fair : FairState env valid.blocks state
  rooted : Rooted env state
  timely :
    ∀ link ∈ state.index.tree,
      valid.Timely now link.header
  stored :
    ∀ hash, (state.db.records.blocks hash).isSome = true →
      state.Knows hash

/- What was known is known still. -/
def Learned
    (before after : ChainState) : Prop :=
  ∀ hash, before.Knows hash → after.Knows hash

theorem Learned.refl
    (state : ChainState) :
    Learned state state :=
  fun _ hKnows => hKnows

theorem Learned.trans
    {middle : ChainState}
    (hFirst : Learned state middle)
    (hSecond : Learned middle after) :
    Learned state after :=
  fun hash hKnows => hSecond hash (hFirst hash hKnows)

theorem Learned.of_tree
    (hTree : after.index.tree = state.index.tree) :
    Learned state after := by
  intro hash hKnows
  rwa [ChainState.Knows, hTree]

theorem Learned.of_grew
    (hGrew : Grew state.index.tree after.index.tree) :
    Learned state after := by
  rintro hash ⟨link, hLink, hHash⟩
  rcases hGrew with hSame | ⟨newest, hMore, -⟩
  · exact ⟨link, hSame ▸ hLink, hHash⟩
  · rw [ChainState.Knows, hMore]
    exact ⟨link, List.mem_cons_of_mem _ hLink, hHash⟩

theorem knows_iff
    (hIndex : IndexOk env.crypto env.params state.index)
    {hash : Hash256} :
    state.Knows hash ↔
      (state.index.find hash).isSome = true := by
  constructor
  · rintro ⟨link, hLink, rfl⟩
    rcases List.mem_map.mp hLink with ⟨entry, hEntry, rfl⟩
    rw [show entry.toLink.hash = entry.hash from rfl,
      hIndex.find_of_mem hEntry]
    rfl
  · intro hFound
    rcases Option.isSome_iff_exists.mp hFound with
      ⟨entry, hEntry⟩
    rcases IndexOk.mem_of_find hEntry with ⟨hMember, hHash⟩
    exact ⟨entry.toLink, IndexOk.link_mem hMember, hHash⟩

namespace Member

theorem index
    (hMember : Member valid now state) :
    IndexOk env.crypto env.params state.index :=
  hMember.fair.sourced.index

theorem fresh
    (valid : ValidBlocks env.crypto env.params)
    (now : Int64) :
    Member valid now (.fresh env.crypto env.params) where
  live := .fresh env
  fair := .fresh env _
  rooted := .fresh env
  timely := by
    intro link hLink
    rcases List.mem_singleton.mp hLink with rfl
    exact ⟨_, valid.treeOk.root_mem, rfl, Or.inl rfl⟩
  stored := by
    intro hash hSome
    cases hSome

theorem later
    {later : Int64}
    (hRoom : ClockFits later)
    (hLater : now ≤ later)
    (hMember : Member valid now state) :
    Member valid later state :=
  { hMember with
    timely := fun link hLink =>
      (hMember.timely link hLink).later hRoom hLater }

theorem reset
    (hMember : Member valid now state)
    (moments : List Moment) :
    Member valid now { state with moments } :=
  { live := hMember.live.reset moments
    fair := hMember.fair.reset moments
    rooted := hMember.rooted.reset moments
    timely := hMember.timely
    stored := hMember.stored }

theorem quiet
    (hPlan : Reliable env.plan)
    (hMember : Member valid now state)
    {db : ChainDb}
    (hQuiet : DbQuiet env.plan state.db db) :
    Member valid now { state with db } :=
  { live := (LiveState.kept hPlan).quiet _ _ hMember.live
      hQuiet
    fair := (FairState.kept hPlan.calm
      valid.unambiguous).quiet _ _ hMember.fair hQuiet
    rooted := hMember.rooted.quiet hQuiet
    timely := hMember.timely
    stored := by
      rw [hQuiet.records]
      exact hMember.stored }

/- Genesis is there from the start. -/
theorem knows_genesis
    (hMember : Member valid now state) :
    state.Knows
      ((buildGenesisBlock env.crypto
        env.params).header.hash env.crypto) :=
  ⟨_, hMember.index.tree.root_mem, rfl⟩

theorem knows_root
    (hMember : Member valid now state)
    {link : Link}
    (hLink : link ∈ valid.tree)
    (hNone : link.parent = none) :
    state.Knows link.hash := by
  rw [valid.treeOk.grown.root_unique hLink
    valid.treeOk.root_mem hNone rfl]
  exact hMember.knows_genesis

theorem knows_tip
    (hMember : Member valid now state) :
    state.Knows state.tip := by
  rcases hMember.rooted.tip_mem with ⟨tip, hTip, hHash, -⟩
  exact ⟨tip, hTip, hHash⟩

/- The link of an indexed header in the valid tree. -/
theorem exists_twin
    (hMember : Member valid now state)
    {own : Link}
    (hOwn : own ∈ state.index.tree) :
    ∃ link ∈ valid.tree,
      link.header = own.header ∧ link.hash = own.hash := by
  rcases hMember.timely own hOwn with
    ⟨link, hLink, hHeader, -⟩
  refine ⟨link, hLink, hHeader, ?_⟩
  rw [(valid.treeOk.header_of_mem hLink).1,
    (hMember.index.tree.header_of_mem hOwn).1, hHeader]

/- A body is stored under a header that was let in. -/
theorem body_timely
    (hMember : Member valid now state)
    {hash : Hash256}
    {block : Block}
    (hBlock : state.db.records.blocks hash = some block) :
    block ∈ valid.blocks ∧
      valid.Timely now block.header := by
  rcases hMember.fair.sourced.bodies hash block hBlock with
    ⟨hValid, hHash, -⟩
  refine ⟨hValid, ?_⟩
  rcases hMember.stored hash (by rw [hBlock]; rfl) with
    ⟨own, hOwn, hOwnHash⟩
  rcases valid.placed block hValid with
    ⟨link, hLink, hHeader⟩
  have hTimely := hMember.timely own hOwn
  rcases hTimely with ⟨twin, hTwin, hSame, hClock⟩
  have hTwinLink : twin = link := by
    apply valid.header_unique hTwin hLink
    rw [hSame, hHeader,
      ← (hMember.index.tree.header_of_mem hOwn).1, hOwnHash,
      ← hHash]
    rfl
  rw [← hHeader, ← hTwinLink, hSame]
  exact ⟨twin, hTwin, hSame, hClock⟩

/- By induction on the ancestors: a piece of that tree. -/
theorem line_eq
    (hMember : Member valid now state)
    {own : Link}
    (hOwn : own ∈ state.index.tree) :
    lineOf valid.tree own.hash =
      lineOf state.index.tree own.hash := by
  have hTree := hMember.index.tree
  refine hTree.grown.ancestor_induction
    (motive := fun own =>
      lineOf valid.tree own.hash =
        lineOf state.index.tree own.hash)
    ?_ ?_ own hOwn
  · intro root hRoot hNone
    exact hTree.lineOf_root valid.treeOk hRoot hNone
  · intro link hLink above hAbove hParent ih
    rcases hMember.exists_twin hLink with
      ⟨twin, hTwin, hHeader, -⟩
    exact lineOf_eq_of_parent hTree valid.treeOk hLink
      hAbove hParent hTwin hHeader ih

theorem eligible
    (hMember : Member valid now state)
    {own : Link}
    (hOwn : own ∈ state.index.tree) :
    state.index.eligible own.hash = true := by
  apply hMember.fair.blamed.eligible_of_viable
    hMember.index.tree hOwn
  rw [← viable_congr (hMember.line_eq hOwn)]
  rcases hMember.exists_twin hOwn with
    ⟨link, hLink, -, hHash⟩
  rw [← hHash]
  exact valid.viable link hLink

/-
  A header is let in if it is known already, or if its parent
  is.
-/
theorem header_indexed
    (hMember : Member valid now state)
    {header : BlockHeader}
    (hTimely : valid.Timely now header)
    (hKnown :
      state.Knows (header.hash env.crypto) ∨
        state.Knows header.prevBlock) :
    ∃ index, Indexed env header now state index := by
  by_cases hThere : state.Knows (header.hash env.crypto)
  · have hFound := (knows_iff hMember.index).mp hThere
    rcases hThere with ⟨own, hOwn, hHash⟩
    have hEligible := hMember.eligible hOwn
    rw [hHash] at hEligible
    exact ⟨state.index, BlockIndex.addHeader_eq_ok.mpr
      (Or.inl ⟨rfl, hFound⟩), hEligible⟩
  have hParentKnown := hKnown.resolve_left hThere
  rcases hTimely with ⟨link, hLink, rfl, hClock⟩
  have hHash := (valid.treeOk.header_of_mem hLink).1
  rw [← hHash] at hThere
  cases hParent : link.parent with
  | none => exact absurd (hMember.knows_root hLink hParent) hThere
  | some hash =>
      rcases valid.treeOk.grown.exists_parent hLink hParent
        with ⟨above, hAbove, rfl⟩
      rw [hParent] at hClock
      rw [valid.treeOk.prevBlock_eq hLink hParent]
        at hParentKnown
      rcases hParentKnown with ⟨own, hOwn, hOwnHash⟩
      have hLine := (hMember.line_eq hOwn).symm
      rw [hOwnHash] at hLine
      rcases header_offered hMember.fair valid.treeOk hLink
        hAbove hParent (valid.viable link hLink) hLine
        (fun other hOther hSame =>
          absurd ⟨other, hOther, hSame⟩ hThere)
        (hClock.resolve_left nofun) with
        ⟨index, hIndexed, -⟩
      exact ⟨index, hIndexed⟩

end Member

------------------------------------------------------------
-- Steps
------------------------------------------------------------

/- What a header that was not known was checked against. -/
theorem BlockIndex.clock_of_addHeader
    {c : Crypto}
    {params : ChainParams}
    {index added : BlockIndex}
    {header : BlockHeader}
    (hAdded :
      index.addHeader c params header now = .ok added)
    {link : Link}
    (hLink : link ∈ added.tree) :
    link ∈ index.tree ∨
      link.header = header ∧
        tooFarAhead header.timestamp now = false := by
  rcases addHeader_eq_ok.mp hAdded with
    ⟨rfl, -⟩ | ⟨-, parent, -, -, -, hContext, rfl⟩
  · exact Or.inl hLink
  rcases List.mem_cons.mp hLink with rfl | hOld
  · unfold contextualCheckBlockHeader headerContextFor
      at hContext
    simp only [except_bind_eq_ok, rejectIf_eq_ok] at hContext
    rcases hContext with ⟨-, -, -, -, -, -, -, -, hClock⟩
    exact Or.inr ⟨rfl, hClock⟩
  · exact Or.inl hOld

theorem HeaderStep.grew
    {header : BlockHeader}
    (hStep : HeaderStep env header now state after) :
    Grew state.index.tree after.index.tree := by
  cases hStep with
  | unchanged => exact Or.inl rfl
  | indexed hIndexed hEntry =>
      rw [hEntry.frame.1]
      exact BlockIndex.addHeader_grew hIndexed.added

theorem HeaderStep.blocks
    {header : BlockHeader}
    (hStep : HeaderStep env header now state after) :
    after.db.records.blocks = state.db.records.blocks := by
  cases hStep with
  | unchanged => rfl
  | indexed hIndexed hEntry =>
      exact hEntry.frame.2.2.2.2.1

/- The header is known once it was let in. -/
theorem HeaderStep.knows
    {header : BlockHeader}
    {index : BlockIndex}
    (hIndexed : Indexed env header now state index)
    (hStep : HeaderStep env header now state after) :
    after.Knows (header.hash env.crypto) := by
  cases hStep with
  | unchanged hNot => exact absurd hIndexed (hNot index)
  | indexed hOther hEntry =>
      rw [ChainState.Knows, hEntry.frame.1]
      exact IndexOk.mem_of_eligible hOther.eligible

namespace Member

section Steps

variable {time : Int64}
variable (hPlan : Reliable env.plan) (hRoom : ClockFits now)
variable (hTime : time ≤ now)
variable (hMember : Member valid now state)

include hRoom hTime hMember in
theorem timely_addHeader
    {header : BlockHeader}
    {index : BlockIndex}
    (hValid : ∃ link ∈ valid.tree, link.header = header)
    (hAdded :
      state.index.addHeader env.crypto env.params header
        time = .ok index) :
    ∀ link ∈ index.tree, valid.Timely now link.header := by
  intro link hLink
  rcases BlockIndex.clock_of_addHeader hAdded hLink with
    hOld | ⟨rfl, hClock⟩
  · exact hMember.timely link hOld
  · rcases hValid with ⟨twin, hTwin, hHeader⟩
    exact ⟨twin, hTwin, hHeader,
      Or.inr (tooFarAhead_later hRoom hTime hClock)⟩

include hPlan hRoom hTime hMember in
theorem headerStep
    {header : BlockHeader}
    (hValid : ∃ link ∈ valid.tree, link.header = header)
    (hStep : HeaderStep env header time state after) :
    Member valid now after where
  live :=
    ⟨hMember.live.sound.headerStep hStep,
      (hStep.faulted hPlan).trans hMember.live.fine⟩
  fair := hMember.fair.headerStep hStep
  rooted := hMember.rooted.headerStep hStep
  timely := by
    cases hStep with
    | unchanged => exact hMember.timely
    | indexed hIndexed hEntry =>
        rw [hEntry.frame.1]
        exact timely_addHeader hRoom hTime hMember hValid
          hIndexed.added
  stored := by
    intro hash hSome
    rw [hStep.blocks] at hSome
    exact Learned.of_grew hStep.grew hash
      (hMember.stored hash hSome)

include hMember in
theorem blockStep_grew
    {block : Block}
    (hStep : BlockStep env block time state after) :
    Grew state.index.tree after.index.tree := by
  rcases hStep.tree hMember.index with
    ⟨-, rfl⟩ | ⟨index, hIndexed, hTree⟩
  · exact Or.inl rfl
  · rw [hTree]
    exact BlockIndex.addHeader_grew hIndexed.added

include hPlan hRoom hTime hMember in
theorem blockStep
    {block : Block}
    (hBlock : block ∈ valid.blocks)
    (hStep : BlockStep env block time state after) :
    Member valid now after where
  live :=
    ⟨hMember.live.sound.blockStep hPlan.calm hStep,
      (hStep.faulted hPlan).trans hMember.live.fine⟩
  fair := by
    refine hMember.fair.blockStep hPlan.calm
      valid.unambiguous hBlock ?_ hStep
    intro index error _ _ _ hFails
    rw [valid.passes block hBlock] at hFails
    cases hFails
  rooted := hMember.rooted.blockStep hStep
  timely := by
    rcases hStep.tree hMember.index with
      ⟨-, rfl⟩ | ⟨index, hIndexed, hTree⟩
    · exact hMember.timely
    · rw [hTree]
      exact timely_addHeader hRoom hTime hMember
        (valid.placed block hBlock) hIndexed.added
  stored := by
    have hLearned :=
      Learned.of_grew (hMember.blockStep_grew hStep)
    cases hStep with
    | unchanged => exact hMember.stored
    | known hIndexed hQuiet =>
        intro hash hSome
        rw [hQuiet.records] at hSome
        exact hLearned hash (hMember.stored hash hSome)
    | refused hIndexed hQuiet hAbsent hFails hEntry =>
        rw [valid.passes block hBlock] at hFails
        cases hFails
    | stored hIndexed hQuiet hAbsent hPasses hBody hEntry =>
        intro hash hSome
        rw [hEntry.frame.2.2.2.2.1] at hSome
        simp only [(hBody.of_reliable hPlan).2.2,
          hQuiet.records, recordBlock] at hSome
        by_cases hHash : hash = block.hash env.crypto
        · rw [ChainState.Knows, hEntry.frame.1, hHash]
          simp only [BlockIndex.recordValidity_tree]
          exact IndexOk.mem_of_eligible hIndexed.eligible
        · rw [Function.update_of_ne hHash] at hSome
          exact hLearned hash (hMember.stored hash hSome)

include hPlan hMember in
/- Activating ends, and touches neither tree nor bodies. -/
theorem activate :
    wpE (activateBestChain env)
      (fun outcome after =>
        (∃ summary, outcome = .ok summary) ∧
          Member valid now after ∧ Learned state after)
      state := by
  rcases activateBestChain_spec hPlan hMember.live with
    ⟨⟨summary, hOk⟩, hLive, hActivated⟩
  have hPassed := (hActivated.ended hPlan hMember.live
    (.refl env _)).2
  have hTree := hPassed.tree
  have hBlocks := hPassed.blocks
  refine ⟨⟨_, hOk⟩, ?_, .of_tree hTree⟩
  exact
    { live := hLive
      fair := (FairState.kept hPlan.calm
        valid.unambiguous).activateBestChain hMember.fair
      rooted :=
        Rooted.kept.activateBestChain hMember.rooted
      timely := by
        rw [hTree]
        exact hMember.timely
      stored := by
        rw [hBlocks]
        intro hash hSome
        rw [ChainState.Knows, hTree]
        exact hMember.stored hash hSome }

end Steps

end Member

------------------------------------------------------------
-- Calls
------------------------------------------------------------

theorem acceptHeader_indexed
    {header : BlockHeader}
    {index : BlockIndex}
    (hIndexed : Indexed env header now state index) :
    (acceptHeader env header now state).1 =
      .ok (header.hash env.crypto) := by
  have hEligible := hIndexed.eligible
  have hResult :
      wp (acceptHeader env header now)
        (fun outcome _ =>
          outcome = .ok (header.hash env.crypto)) state := by
    unfold acceptHeader
    rw [wp_bind, wp_get]
    simp only [hIndexed.added]
    unfold modifyIndex
    rw [wp_bind, wp_modify]
    simp only [hEligible, Bool.not_true,
      Bool.false_eq_true, if_false]
    rw [wp_bind]
    exact wp_mono (commitEntry_spec env _ _)
      fun _ _ _ => rfl
  exact hResult

/- Neither known nor on top of what is known. -/
theorem acceptBlock_unknown
    (hIndex : IndexOk env.crypto env.params state.index)
    {block : Block}
    (hNew : ¬state.Knows (block.hash env.crypto))
    (hAlone : ¬state.Knows block.header.prevBlock) :
    ∃ error,
      (acceptBlock env block now state).1 = .error error := by
  rw [knows_iff hIndex] at hNew hAlone
  cases hAdded : state.index.addHeader env.crypto env.params
      block.header now with
  | ok index =>
      rcases BlockIndex.addHeader_eq_ok.mp hAdded with
        ⟨-, hFound⟩ | ⟨-, parent, hFound, -⟩
      · exact absurd hFound hNew
      · rw [hFound] at hAlone
        exact absurd rfl hAlone
  | error error =>
      have hResult :
          wp (acceptBlock env block now)
            (fun outcome _ => ∃ error, outcome = .error error)
            state := by
        unfold acceptBlock
        rw [wp_bind, wp_get]
        simp only [hAdded]
        exact ⟨_, rfl⟩
      exact hResult

namespace Member

section Calls

variable (hPlan : Reliable env.plan) (hRoom : ClockFits now)
variable (hMember : Member valid now state)

include hPlan hRoom hMember in
theorem acceptHeader
    {header : BlockHeader}
    (hTimely : valid.Timely now header)
    (hKnown :
      state.Knows (header.hash env.crypto) ∨
        state.Knows header.prevBlock) :
    wp (Amarian.acceptHeader env header now)
      (fun outcome after =>
        outcome = .ok (header.hash env.crypto) ∧
          Member valid now after ∧
            Learned state after ∧
              after.Knows (header.hash env.crypto))
      state := by
  rcases hMember.header_indexed hTimely hKnown with
    ⟨index, hIndexed⟩
  have hStep :
      wp (Amarian.acceptHeader env header now)
        (fun _ after => HeaderStep env header now state after)
        state :=
    acceptHeader_spec header now state
  rcases hTimely with ⟨link, hLink, hHeader, -⟩
  exact ⟨acceptHeader_indexed hIndexed,
    headerStep hPlan hRoom (Int64.le_refl now) hMember
      ⟨link, hLink, hHeader⟩ hStep,
    .of_grew hStep.grew, hStep.knows hIndexed⟩

include hPlan hRoom hMember in
theorem acceptBlock
    {block : Block}
    (hBlock : block ∈ valid.blocks) :
    wp (Amarian.acceptBlock env block now)
      (fun _ after =>
        Member valid now after ∧ Learned state after)
      state := by
  have hStep :
      wp (Amarian.acceptBlock env block now)
        (fun _ after => BlockStep env block now state after)
        state :=
    acceptBlock_spec block now state
  exact ⟨blockStep hPlan hRoom (Int64.le_refl now) hMember
      hBlock hStep,
    .of_grew (hMember.blockStep_grew hStep)⟩

include hMember in
/- A block is taken in where its header is. -/
theorem acceptBlock_ok
    {block : Block}
    (hBlock : block ∈ valid.blocks)
    (hTimely : valid.Timely now block.header)
    (hKnown :
      state.Knows (block.hash env.crypto) ∨
        state.Knows block.header.prevBlock) :
    (Amarian.acceptBlock env block now state).1 =
      .ok (block.hash env.crypto) := by
  rcases hMember.header_indexed hTimely hKnown with
    ⟨index, hIndexed⟩
  exact acceptBlock_indexed hIndexed
    (valid.passes block hBlock)

end Calls

end Member

------------------------------------------------------------
-- Runs
------------------------------------------------------------

/- The call offers what is valid, and not ahead of a clock. -/
def ValidBlocks.Offers
    (valid : ValidBlocks env.crypto env.params)
    (now : Int64) : Call → Prop
  | .acceptHeader header time =>
      (∃ link ∈ valid.tree, link.header = header) ∧
        time ≤ now
  | .acceptBlock block time =>
      block ∈ valid.blocks ∧ time ≤ now
  | .activateBestChain => True

namespace Member

theorem step
    (hPlan : Reliable env.plan)
    (hRoom : ClockFits now)
    (hMember : Member valid now state)
    {call : Call}
    (hOffers : valid.Offers now call) :
    Member valid now (Amarian.step env state call) := by
  have hStart := hMember.reset [⟨state.db, state.index⟩]
  cases call with
  | acceptHeader header time =>
      exact headerStep hPlan hRoom hOffers.2 hStart hOffers.1
        (acceptHeader_spec header time _)
  | acceptBlock block time =>
      exact blockStep hPlan hRoom hOffers.2 hStart hOffers.1
        (acceptBlock_spec block time _)
  | activateBestChain =>
      exact (activate hPlan hStart).2.1

theorem run
    (hPlan : Reliable env.plan)
    (hRoom : ClockFits now)
    {calls : List Call}
    (hOffers : ∀ call ∈ calls, valid.Offers now call) :
    Member valid now (Amarian.run env calls) := by
  have hFrom :
      ∀ state, Member valid now state →
        Member valid now (runFrom env state calls) := by
    induction calls with
    | nil => exact fun _ hMember => hMember
    | cons call calls ih =>
        rw [List.forall_mem_cons] at hOffers
        exact fun _ hMember =>
          ih hOffers.2 _ (hMember.step hPlan hRoom hOffers.1)
  exact hFrom _ (.fresh valid now)

end Member

end Amarian
