import Amarian.Storage.LostHeaders

/-
  Why the committed tip can be resumed from.

  While only header records may be refused, every block from
  the committed tip down to genesis is recorded together with
  its body, and none of them is ruled out: a body is judged
  once, before it is stored, and a block is tried on top of
  the committed tip alone.

  Key definitions include:
    * `Backed`
    * `Anchored`
    * `Moored`

  Key theorems include:
    * `Moored.blockStep`
    * `Moored.disconnectStep`
    * `Moored.connectStep`
-/

namespace Amarian

variable {c : Crypto} {params : ChainParams}
variable {tree : List Link} {index : BlockIndex}

------------------------------------------------------------
-- The Committed Tip
------------------------------------------------------------

/- The hash of genesis. -/
abbrev ChainEnv.root
    (env : ChainEnv) : Hash256 :=
  (buildGenesisBlock env.crypto env.params).header.hash
    env.crypto

/-
  The line of the block is recorded with its bodies, down to
  genesis, and only together with genesis is it ruled out.
-/
structure Backed
    (env : ChainEnv)
    (index : BlockIndex)
    (records : Records)
    (tip : Hash256) : Prop where
  known : ∃ link ∈ index.tree, link.hash = tip
  recorded :
    ∀ hash ∈ branch index.tree tip, hash ≠ env.root →
      (records.index.lookup hash).isSome = true ∧
        (records.blocks hash).isSome = true
  eligible :
    index.eligible env.root = true →
      ∀ hash ∈ branch index.tree tip,
        index.eligible hash = true

/- What is on record failed is not eligible in memory. -/
structure Anchored
    (env : ChainEnv)
    (index : BlockIndex)
    (records : Records) : Prop where
  indexOk : IndexOk env.crypto env.params index
  blamed :
    ∀ hash record, records.index.lookup hash = some record →
      record.failure = .itself →
        index.eligible hash = false
  tip : Backed env index records (records.tip.getD env.root)
  sinkless : env.hasSink = false → records.tip = none

/- A new header leaves the others as they were judged. -/
theorem eligible_addHeader
    {after : BlockIndex}
    {header : BlockHeader}
    {now : Int64}
    {hash : Hash256}
    (hAdded :
      index.addHeader c params header now = .ok after)
    (hKnown : ∃ link ∈ index.tree, link.hash = hash) :
    after.eligible hash = index.eligible hash := by
  rcases BlockIndex.addHeader_eq_ok.mp hAdded with
    ⟨rfl, -⟩ | ⟨hFresh, parent, -, -, -, -, rfl⟩
  · rfl
  · rcases hKnown with ⟨link, hLink, rfl⟩
    have hNew := IndexOk.hash_ne_of_find_none hFresh link
      hLink
    have hNot :
        (newEntry
            (childLink c parent.toLink header
              index.nextSequence) .header).hash ≠
          link.hash := hNew.symm
    rw [BlockIndex.eligible, BlockIndex.find_insertEntry,
      if_neg hNot]
    rfl

theorem IndexOk.branch_genesis
    {env : ChainEnv}
    (hIndex : IndexOk env.crypto env.params index) :
    branch index.tree env.root = [env.root] :=
  hIndex.tree.branch_root hIndex.tree.root_mem rfl

namespace Backed

variable {env : ChainEnv} {after : BlockIndex}
variable {records later : Records} {tip : Hash256}

theorem root
    (hIndex : IndexOk env.crypto env.params index) :
    Backed env index records env.root where
  known := ⟨_, hIndex.tree.root_mem, rfl⟩
  recorded := by
    intro hash hHash hNot
    rw [hIndex.branch_genesis, List.mem_singleton] at hHash
    exact absurd hHash hNot
  eligible := by
    intro hRoot hash hHash
    rw [hIndex.branch_genesis, List.mem_singleton] at hHash
    rw [hHash]
    exact hRoot

/- More records and the same judgements change nothing. -/
theorem same
    (hBacked : Backed env index records tip)
    (hTree : after.tree = index.tree)
    (hEligible :
      ∀ hash, after.eligible hash = index.eligible hash)
    (hShelf :
      ∀ hash, (records.index.lookup hash).isSome = true →
        (later.index.lookup hash).isSome = true)
    (hBlocks :
      ∀ hash, (records.blocks hash).isSome = true →
        (later.blocks hash).isSome = true) :
    Backed env after later tip where
  known := by
    rw [hTree]
    exact hBacked.known
  recorded := by
    rw [hTree]
    intro hash hHash hNot
    rcases hBacked.recorded hash hHash hNot with
      ⟨hHeader, hBody⟩
    exact ⟨hShelf hash hHeader, hBlocks hash hBody⟩
  eligible := by
    rw [hTree, hEligible]
    simp only [hEligible]
    exact hBacked.eligible

theorem addHeader
    (hIndex : IndexOk env.crypto env.params index)
    {header : BlockHeader}
    {now : Int64}
    (hAdded :
      index.addHeader env.crypto env.params header now =
        .ok after)
    (hBacked : Backed env index records tip) :
    Backed env after records tip := by
  have hRoot :
      after.eligible env.root = index.eligible env.root :=
    eligible_addHeader hAdded
      ⟨_, hIndex.tree.root_mem, rfl⟩
  have hLink : ∀ hash ∈ branch index.tree tip,
      after.eligible hash = index.eligible hash := by
    intro hash hHash
    rcases List.mem_map.mp hHash with ⟨link, hLink, rfl⟩
    exact eligible_addHeader hAdded
      ⟨link, Arrival.mem_of_mem_lineage hLink, rfl⟩
  rcases BlockIndex.addHeader_eq_ok.mp hAdded with
    ⟨rfl, -⟩ | ⟨hFresh, parent, -, -, -, -, rfl⟩
  · exact hBacked
  · have hNew := IndexOk.hash_ne_of_find_none hFresh
    have hLine :
        branch
            (index.insertEntry
              (newEntry
                (childLink env.crypto parent.toLink header
                  index.nextSequence) .header)).tree tip =
          branch index.tree tip :=
      TreeOk.branch_cons hNew hBacked.known
    constructor
    · rcases hBacked.known with ⟨link, hOld, hHash⟩
      exact ⟨link, List.mem_cons_of_mem _ hOld, hHash⟩
    · rw [hLine]
      exact hBacked.recorded
    · rw [hLine, hRoot]
      intro hEligible hash hHash
      rw [hLink hash hHash]
      exact hBacked.eligible hEligible hash hHash

/- Another block's failure does not touch the line. -/
theorem recordFailure
    (hIndex : IndexOk env.crypto env.params index)
    {bad : Hash256}
    (hOff :
      bad ∈ branch index.tree tip → bad = env.root)
    (hBacked : Backed env index records tip) :
    Backed env (index.recordFailure bad) records tip := by
  have hTree := BlockIndex.recordFailure_tree hIndex bad
  constructor
  · rw [hTree]
    exact hBacked.known
  · rw [hTree]
    exact hBacked.recorded
  · rw [hTree, eligible_recordFailure_iff hIndex]
    rintro ⟨hRoot, hNot⟩ hash hHash
    rw [eligible_recordFailure_iff hIndex]
    refine ⟨hBacked.eligible hRoot hash hHash, ?_⟩
    rw [descendsFrom, decide_eq_false_iff_not] at hNot ⊢
    intro hOn
    apply hNot
    -- The line of an ancestor is part of the block's line.
    rcases hBacked.known with ⟨link, hLink, rfl⟩
    rcases List.mem_map.mp hHash with ⟨above, hAbove, rfl⟩
    rcases List.mem_map.mp hOn with ⟨failed, hFailed, hBad⟩
    have hLine := hIndex.tree.grown.mem_lineage_trans hLink
      hAbove hFailed
    rw [hOff (hBad ▸ List.mem_map.mpr
      ⟨failed, hLine, rfl⟩)]
    exact List.mem_map.mpr
      ⟨_, hIndex.tree.grown.self_mem_lineage
        hIndex.tree.root_mem, rfl⟩

theorem parent
    (hIndex : IndexOk env.crypto env.params index)
    {link : Link}
    {above : Hash256}
    (hLink : link ∈ index.tree)
    (hParent : link.parent = some above)
    (hBacked : Backed env index records link.hash) :
    Backed env index records above := by
  have hTree := hIndex.tree
  have hStep := hTree.branch_step hLink hParent
  rcases hTree.grown.exists_parent hLink hParent with
    ⟨below, hBelow, rfl⟩
  constructor
  · exact ⟨below, hBelow, rfl⟩
  · intro hash hHash
    apply hBacked.recorded
    rw [hStep]
    exact List.mem_cons_of_mem _ hHash
  · intro hRoot hash hHash
    apply hBacked.eligible hRoot
    rw [hStep]
    exact List.mem_cons_of_mem _ hHash

theorem child
    (hIndex : IndexOk env.crypto env.params index)
    {link : Link}
    {above : Hash256}
    (hLink : link ∈ index.tree)
    (hParent : link.parent = some above)
    (hEligible : index.eligible link.hash = true)
    (hHeader :
      (records.index.lookup link.hash).isSome = true)
    (hBody : (records.blocks link.hash).isSome = true)
    (hBacked : Backed env index records above) :
    Backed env index records link.hash where
  known := ⟨link, hLink, rfl⟩
  recorded := by
    rw [hIndex.tree.branch_step hLink hParent]
    intro hash hHash hNot
    rcases List.mem_cons.mp hHash with rfl | hOld
    · exact ⟨hHeader, hBody⟩
    · exact hBacked.recorded hash hOld hNot
  eligible := by
    intro _ hash hHash
    rcases List.mem_map.mp hHash with ⟨above, hAbove, rfl⟩
    exact hIndex.eligible_ancestor hLink hEligible hAbove

end Backed

namespace Anchored

variable {env : ChainEnv} {after : BlockIndex}
variable {records later : Records}

/- The same records, and at least the same failures. -/
theorem same
    (hAnchored : Anchored env index records)
    (hIndex : IndexOk env.crypto env.params after)
    (hTree : after.tree = index.tree)
    (hEligible :
      ∀ hash, after.eligible hash = index.eligible hash)
    (hShelf : later.index = records.index)
    (hBlocks :
      ∀ hash, (records.blocks hash).isSome = true →
        (later.blocks hash).isSome = true)
    (hTip : later.tip = records.tip) :
    Anchored env after later where
  indexOk := hIndex
  blamed := by
    rw [hShelf]
    intro hash record hFound hFailure
    rw [hEligible]
    exact hAnchored.blamed hash record hFound hFailure
  tip := by
    rw [hTip]
    exact hAnchored.tip.same hTree hEligible
      (by rw [hShelf]; exact fun _ => id) hBlocks
  sinkless := by
    rw [hTip]
    exact hAnchored.sinkless

theorem quiet
    {plan : FaultPlan}
    {before middle : ChainDb}
    (hAnchored : Anchored env index before.records)
    (hIndex : IndexOk env.crypto env.params after)
    (hTree : after.tree = index.tree)
    (hEligible :
      ∀ hash, after.eligible hash = index.eligible hash)
    (hQuiet : DbQuiet plan before middle) :
    Anchored env after middle.records := by
  rw [hQuiet.records]
  exact hAnchored.same hIndex hTree hEligible rfl
    (fun _ => id) rfl

theorem addHeader
    {fits : Link → StoredHeader → Prop}
    (hShelved : Shelved fits index.tree records.index)
    {header : BlockHeader}
    {now : Int64}
    (hAdded :
      index.addHeader env.crypto env.params header now =
        .ok after)
    (hAnchored : Anchored env index records) :
    Anchored env after records where
  indexOk := hAnchored.indexOk.addHeader hAdded
  blamed := by
    intro hash record hFound hFailure
    rcases hShelved hash record hFound with
      ⟨link, hLink, hHash, -⟩
    rw [eligible_addHeader hAdded ⟨link, hLink, hHash⟩]
    exact hAnchored.blamed hash record hFound hFailure
  tip := hAnchored.tip.addHeader hAnchored.indexOk hAdded
  sinkless := hAnchored.sinkless

theorem recordFailure
    {bad : Hash256}
    (hOff :
      bad ∈ branch index.tree
          (records.tip.getD env.root) →
        bad = env.root)
    (hAnchored : Anchored env index records) :
    Anchored env (index.recordFailure bad) records where
  indexOk := hAnchored.indexOk.recordFailure bad
  blamed := by
    intro hash record hFound hFailure
    have hBefore := hAnchored.blamed hash record hFound
      hFailure
    rw [← Bool.not_eq_true,
      eligible_recordFailure_iff hAnchored.indexOk, hBefore]
    simp
  tip := hAnchored.tip.recordFailure hAnchored.indexOk hOff
  sinkless := hAnchored.sinkless

/- An entry is recorded with its own failure. -/
theorem recordEntry
    {entry : BlockIndexEntry}
    (hEntry : entry ∈ index.entries)
    (hAnchored : Anchored env index records) :
    Anchored env index (Amarian.recordEntry entry records)
    where
  indexOk := hAnchored.indexOk
  blamed := by
    intro hash record hFound hFailure
    by_cases hHash : hash = entry.hash
    · subst hHash
      simp only [Amarian.recordEntry, AList.lookup_insert,
        Option.some_inj] at hFound
      subst hFound
      rw [hAnchored.indexOk.eligible_entry hEntry]
      simp only [ChainDb.storedHeader] at hFailure
      simp [BlockIndexEntry.isEligible, hFailure]
    · simp only [Amarian.recordEntry,
        AList.lookup_insert_ne hHash] at hFound
      exact hAnchored.blamed hash record hFound hFailure
  tip := by
    refine hAnchored.tip.same rfl (fun _ => rfl) ?_
      fun _ => id
    intro hash hFound
    by_cases hHash : hash = entry.hash
    · subst hHash
      simp [Amarian.recordEntry]
    · simp only [Amarian.recordEntry,
        AList.lookup_insert_ne hHash]
      exact hFound
  sinkless := hAnchored.sinkless

end Anchored

------------------------------------------------------------
-- Runs Over A Calm Store
------------------------------------------------------------

/- The facts of `Anchored`, now and at every moment. -/
structure Tied
    (env : ChainEnv)
    (state : ChainState) : Prop where
  now : Anchored env state.index state.db.records
  moments :
    ∀ moment ∈ state.moments,
      Anchored env moment.index moment.db.records

theorem Tied.moment
    {env : ChainEnv}
    {state : ChainState}
    (hTied : Tied env state)
    {moment : Moment}
    (hMember :
      moment ∈ (⟨state.db, state.index⟩ :: state.moments)) :
    Anchored env moment.index moment.db.records := by
  rcases List.mem_cons.mp hMember with rfl | hOld
  · exact hTied.now
  · exact hTied.moments moment hOld

/- While the latch is off the tip is the committed one. -/
structure Following
    (env : ChainEnv)
    (state : ChainState) : Prop where
  tip :
    env.hasSink = true → state.db.faulted = false →
      state.chain.head? =
        some (state.db.records.tip.getD env.root)

theorem DbQuiet.fine
    {plan : FaultPlan}
    {before after : ChainDb}
    (hQuiet : DbQuiet plan before after)
    (hFine : after.faulted = false) :
    before.faulted = false := by
  rw [← Bool.not_eq_true] at hFine ⊢
  exact mt hQuiet.latch hFine

section Commits

variable {env : ChainEnv} {state after : ChainState}

/- What a write leaves is one more moment. -/
theorem Tied.wrote
    {db : ChainDb}
    (hNow : Anchored env state.index db.records)
    (hTied : Tied env state) :
    Tied env (state.wrote db) := by
  refine ⟨hNow, ?_⟩
  intro moment hMoment
  rcases List.mem_cons.mp hMoment with rfl | hOld
  · exact hNow
  · exact hTied.moments moment hOld

theorem Tied.entryCommit
    {hash : Hash256}
    (hEntry : EntryCommit env hash state after)
    (hTied : Tied env state) :
    Tied env after := by
  cases hEntry with
  | skipped => exact hTied
  | @issued entry written db hSink hFound hWrite =>
      rcases IndexOk.mem_of_find hFound with ⟨hMember, -⟩
      refine hTied.wrote ?_
      cases hWrite with
      | written => exact hTied.now.recordEntry hMember
      | refused => exact hTied.now

/- An entry that was committed without a fault is there. -/
theorem EntryCommit.recorded
    {hash : Hash256}
    (hEntry : EntryCommit env hash state after)
    (hSink : env.hasSink = true)
    (hFound : (state.index.find hash).isSome = true)
    (hFine : after.db.faulted = false) :
    state.db.faulted = false ∧
      (after.db.records.index.lookup hash).isSome =
        true := by
  cases hEntry with
  | skipped hSkipped =>
      rcases hSkipped with hNoSink | hNone
      · rw [hSink] at hNoSink
        cases hNoSink
      · rw [hNone] at hFound
        cases hFound
  | @issued entry written db hSink hEntry hWrite =>
      rcases IndexOk.mem_of_find hEntry with ⟨-, rfl⟩
      cases hWrite with
      | written =>
          exact ⟨hFine, by
            simp [ChainState.wrote, recordEntry]⟩
      | refused => cases hFine

theorem EntryCommit.latch
    {hash : Hash256}
    (hEntry : EntryCommit env hash state after)
    (hFine : after.db.faulted = false) :
    state.db.faulted = false := by
  cases hEntry with
  | skipped => exact hFine
  | issued hSink hFound hWrite =>
      cases hWrite with
      | written => exact hFine
      | refused => cases hFine

theorem EntryCommit.lookup
    {hash wanted : Hash256}
    (hEntry : EntryCommit env hash state after)
    (hFound :
      (state.db.records.index.lookup wanted).isSome = true) :
    (after.db.records.index.lookup wanted).isSome = true := by
  cases hEntry with
  | skipped => exact hFound
  | @issued entry written db hSink hEntry hWrite =>
      cases hWrite with
      | refused => exact hFound
      | written =>
          by_cases hHash : wanted = entry.hash
          · subst hHash
            simp [ChainState.wrote, recordEntry]
          · simpa [ChainState.wrote, recordEntry, hHash] using
              hFound

theorem Following.same
    (hFollowing : Following env state)
    (hChain : after.chain = state.chain)
    (hRecords :
      after.db.records.tip = state.db.records.tip)
    (hLatch :
      after.db.faulted = false →
        state.db.faulted = false) :
    Following env after where
  tip := by
    intro hSink hFine
    rw [hChain, hRecords]
    exact hFollowing.tip hSink (hLatch hFine)

theorem Following.entryCommit
    {hash : Hash256}
    (hEntry : EntryCommit env hash state after)
    (hFollowing : Following env state) :
    Following env after := by
  rcases hEntry.frame with ⟨-, hChain, -, -, -, -, hTip⟩
  exact hFollowing.same hChain hTip hEntry.latch

/- Nothing is committed that is not recorded below. -/
theorem Tied.tipCommit
    (hCalm : Calm env.plan)
    {written : Bool}
    (hTip : TipCommit env state written after)
    (hBacked :
      env.hasSink = true → state.db.faulted = false →
        Backed env state.index state.db.records state.tip)
    (hTied : Tied env state) :
    Tied env after := by
  cases hTip with
  | skipped => exact hTied
  | blocked => exact hTied.wrote hTied.now
  | @issued written db hSink hFine hWrite =>
      have hNow : Anchored env state.index db.records := by
        cases hWrite with
        | refused hFails =>
            rw [hCalm .commitTip _ (by simp)] at hFails
            cases hFails
        | written =>
            exact ⟨hTied.now.indexOk, hTied.now.blamed,
              (hBacked hSink hFine).same rfl (fun _ => rfl)
                (fun _ => id) fun _ => id,
              by rw [hSink]; intro hNot; cases hNot⟩
      exact ⟨hNow, (hTied.wrote hNow).moments⟩

theorem Following.tipCommit
    (hCalm : Calm env.plan)
    {written : Bool}
    (hTip : TipCommit env state written after)
    (hHead : state.chain.head? = some state.tip) :
    Following env after := by
  constructor
  cases hTip with
  | skipped hSink =>
      rw [hSink]
      intro hNot
      cases hNot
  | blocked hSink hFaulted =>
      intro _ hFine
      rw [ChainState.wrote, hFaulted] at hFine
      cases hFine
  | issued hSink hFine hWrite =>
      cases hWrite with
      | refused hFails =>
          rw [hCalm .commitTip _ (by simp)] at hFails
          cases hFails
      | written => exact fun _ _ => hHead

end Commits

/- A block is not in the line of its own parent. -/
theorem TreeOk.not_mem_branch_parent
    (hTree : TreeOk c params tree)
    {link : Link}
    {above : Hash256}
    (hLink : link ∈ tree)
    (hParent : link.parent = some above) :
    link.hash ∉ branch tree above := by
  rcases hTree.grown.exists_parent hLink hParent with
    ⟨below, hBelow, rfl⟩
  intro hOn
  rcases List.mem_map.mp hOn with ⟨ancestor, hLine, hHash⟩
  have hShort := (hTree.grown.lineage_suffix hBelow ancestor
    hLine).length_le
  rw [hHash, hTree.grown.lineage_step hLink hParent,
    List.length_cons] at hShort
  omega

/- The invariant of a run over a calm store. -/
structure Moored
    (env : ChainEnv)
    (state : ChainState) : Prop where
  onShelf : OnShelf env (fun _ _ => True) state
  tied : Tied env state
  following : Following env state

namespace Moored

variable {env : ChainEnv} {state after : ChainState}

theorem indexOk
    (hState : Moored env state) :
    IndexOk env.crypto env.params state.index :=
  hState.onShelf.rooted.sourced.index

theorem fresh
    (env : ChainEnv) :
    Moored env (.fresh env.crypto env.params) where
  onShelf :=
    ⟨Rooted.fresh env, ShelfOk.fresh env _, fun _ => trivial⟩
  tied :=
    { now :=
        { indexOk := IndexOk.forNetwork env.crypto env.params
          blamed := by
            intro hash record hFound
            exact absurd hFound (by
              simp [ChainState.fresh, ChainDb.empty,
                Records.empty])
          tip := Backed.root
            (IndexOk.forNetwork env.crypto env.params)
          sinkless := fun _ => rfl }
      moments := by simp [ChainState.fresh] }
  following := ⟨fun _ _ => rfl⟩

theorem quiet
    (hState : Moored env state)
    {db : ChainDb}
    (hQuiet : DbQuiet env.plan state.db db) :
    Moored env { state with db } where
  onShelf := OnShelf.kept.quiet _ _ hState.onShelf hQuiet
  tied :=
    { now := hState.tied.now.quiet hState.indexOk rfl
        (fun _ => rfl) hQuiet
      moments := hState.tied.moments }
  following := hState.following.same rfl
    (congrArg Records.tip hQuiet.records) hQuiet.fine

/- The committed tip is what the chain ends in. -/
theorem tip_eq
    (hState : Moored env state)
    (hSink : env.hasSink = true)
    (hFine : state.db.faulted = false) :
    state.tip = state.db.records.tip.getD env.root := by
  rw [ChainState.tip, List.headD_eq_head?_getD,
    hState.following.tip hSink hFine]
  rfl

theorem backed
    (hState : Moored env state)
    (hSink : env.hasSink = true)
    (hFine : state.db.faulted = false) :
    Backed env state.index state.db.records state.tip := by
  rw [hState.tip_eq hSink hFine]
  exact hState.tied.now.tip

theorem headerStep
    (hState : Moored env state)
    {header : BlockHeader}
    {now : Int64}
    (hStep : HeaderStep env header now state after) :
    Moored env after := by
  refine ⟨hState.onShelf.headerStep hStep, ?_, ?_⟩
  · cases hStep with
    | unchanged => exact hState.tied
    | indexed hIndexed hEntry =>
        refine Tied.entryCommit hEntry ?_
        exact ⟨hState.tied.now.addHeader
            hState.onShelf.shelf.now.shelved hIndexed.added,
          hState.tied.moments⟩
  · cases hStep with
    | unchanged => exact hState.following
    | indexed hIndexed hEntry =>
        refine Following.entryCommit hEntry ?_
        exact hState.following.same rfl rfl id

theorem addHeader
    (hState : Moored env state)
    {header : BlockHeader}
    {now : Int64}
    {index : BlockIndex}
    (hAdded :
      state.index.addHeader env.crypto env.params header
        now = .ok index) :
    Tied env { state with index } :=
  ⟨hState.tied.now.addHeader
      hState.onShelf.shelf.now.shelved hAdded,
    hState.tied.moments⟩

/-
  A body is refused only where none is stored, and under the
  committed tip that is so for genesis alone.
-/
theorem blockStep
    (hCalm : Calm env.plan)
    (hState : Moored env state)
    {block : Block}
    {now : Int64}
    (hStep : BlockStep env block now state after) :
    Moored env after := by
  refine ⟨hState.onShelf.blockStep hStep, ?_, ?_⟩
  · cases hStep with
    | unchanged => exact hState.tied
    | known hIndexed hQuiet =>
        have hAdded := hState.addHeader hIndexed.added
        exact ⟨hAdded.now.quiet hAdded.now.indexOk rfl
          (fun _ => rfl) hQuiet, hAdded.moments⟩
    | refused hIndexed hQuiet hAbsent hFails hEntry =>
        have hAdded := hState.addHeader hIndexed.added
        have hNone := hAbsent (.inl hCalm)
        refine Tied.entryCommit hEntry ?_
        refine ⟨?_, hAdded.moments⟩
        rw [hQuiet.records]
        refine hAdded.now.recordFailure ?_
        intro hOn
        by_contra hNot
        have hBody := (hAdded.now.tip.recorded _ hOn hNot).2
        rw [hNone] at hBody
        cases hBody
    | @stored index db bodyDb written after hIndexed hQuiet
        hAbsent hPasses hBody hEntry =>
        have hIndex := hState.indexOk.addHeader
          hIndexed.added
        have hAdded := hState.addHeader hIndexed.added
        have hNow : ∀ other : BlockIndex,
            IndexOk env.crypto env.params other →
            other.tree = index.tree →
            (∀ hash,
              other.eligible hash = index.eligible hash) →
              Anchored env other bodyDb.records := by
          intro other hOk hTree hEligible
          cases hBody with
          | refused hFails =>
              rw [hCalm .putBlock _ (by simp)] at hFails
              cases hFails
          | written =>
              refine hAdded.now.same hOk hTree hEligible
                (by simp [recordBlock, hQuiet.records]) ?_
                (by simp [recordBlock, hQuiet.records])
              intro hash hFound
              simp only [recordBlock, hQuiet.records]
              by_cases hHash : hash = block.hash env.crypto
              · subst hHash
                simp
              · rw [Function.update_of_ne hHash]
                exact hFound
        refine Tied.entryCommit hEntry ?_
        refine ⟨hNow _ (hIndex.recordValidity _ _) (by simp)
          (by simp), ?_⟩
        intro moment hMoment
        rcases List.mem_cons.mp hMoment with rfl | hOld
        · exact hNow _ hIndex rfl fun _ => rfl
        · exact hAdded.moments moment hOld
  · cases hStep with
    | unchanged => exact hState.following
    | known hIndexed hQuiet =>
        exact hState.following.same rfl
          (congrArg Records.tip hQuiet.records) hQuiet.fine
    | refused hIndexed hQuiet hAbsent hFails hEntry =>
        refine Following.entryCommit hEntry ?_
        exact hState.following.same rfl
          (congrArg Records.tip hQuiet.records) hQuiet.fine
    | stored hIndexed hQuiet hAbsent hPasses hBody hEntry =>
        refine Following.entryCommit hEntry
          (hState.following.same rfl ?_ ?_)
        · rw [← hQuiet.records]
          cases hBody <;> rfl
        · intro hFine
          apply hQuiet.fine
          cases hBody with
          | written => exact hFine
          | refused => cases hFine

theorem disconnectStep
    (hCalm : Calm env.plan)
    (hState : Moored env state)
    {outcome : Except ActivationFailure Unit}
    (hStep : DisconnectStep env state outcome after) :
    Moored env after := by
  cases hStep with
  | stopped hQuiet => exact hState.quiet hQuiet
  | moved hFound hParent hBlock hUndo hBefore hRun hTip =>
      have hShelf := OnShelf.kept.disconnect _ _ _
        hState.onShelf (.moved hFound hParent hBlock hUndo
          hBefore hRun hTip)
      have hQuiet :=
        hBefore.trans (disconnectBlock_trusted hRun).1
      have hTree := hState.indexOk.tree
      rcases hState.onShelf.rooted.tip_mem with
        ⟨link, hLink, hHash, hBranch⟩
      rcases IndexOk.mem_of_find hFound with
        ⟨hMember, hEntryHash⟩
      have hSame := hTree.grown.key_injective
        (IndexOk.link_mem hMember) hLink
        (hEntryHash.trans hHash.symm)
      rw [← hSame] at hLink hBranch
      rcases hTree.grown.exists_parent hLink hParent with
        ⟨above, hAbove, rfl⟩
      rcases hTree.exists_branch_eq_cons hAbove with
        ⟨below, hCons⟩
      have hTail :
          state.chain.tail = above.hash :: below := by
        rw [hBranch, hTree.branch_step hLink hParent,
          List.tail_cons, hCons]
      refine ⟨hShelf, ?_, ?_⟩
      · refine Tied.tipCommit hCalm hTip ?_
          ⟨hState.tied.now.quiet hState.indexOk rfl
            (fun _ => rfl) hQuiet, hState.tied.moments⟩
        intro hSink hFine
        have hTop := hState.backed hSink (hQuiet.fine hFine)
        rw [← hEntryHash] at hTop
        have hBelow := hTop.parent hState.indexOk hLink
          hParent
        rw [ChainState.tip, hTail, List.headD_cons]
        exact hBelow.same rfl (fun _ => rfl)
          (by simp [hQuiet.records])
          (by simp [hQuiet.records])
      · refine Following.tipCommit hCalm hTip ?_
        rw [ChainState.tip, hTail]
        rfl

/- Only a block that nothing rules out is ever tried. -/
theorem connectStep
    (hCalm : Calm env.plan)
    (hState : Moored env state)
    {hash : Hash256}
    (hEligible : state.index.eligible hash = true)
    {outcome : Except ActivationFailure Bool}
    (hStep : ConnectStep env hash state outcome after) :
    Moored env after := by
  have hShelf := OnShelf.kept.connect _ _ _ _
    hState.onShelf hStep
  cases hStep with
  | stopped hQuiet => exact hState.quiet hQuiet
  | suspended hCandidate hRefusal =>
      rcases hRefusal.frame with ⟨hTree, hSame, hQuiet⟩
      have hIndex : IndexOk env.crypto env.params _ :=
        hShelf.rooted.sourced.index
      refine ⟨hShelf, ⟨?_, hState.tied.moments⟩, ?_⟩
      · exact hState.tied.now.quiet hIndex hTree hSame hQuiet
      · exact hState.following.same rfl
          (congrArg Records.tip hQuiet.records) hQuiet.fine
  | @refused entry block index db after hCandidate hRefusal
      hFine hEntry =>
      rcases hRefusal.frame with ⟨hTree, hSame, hQuiet⟩
      have hIndex : IndexOk env.crypto env.params index := by
        cases hRefusal with
        | body => exact hState.indexOk
        | coins => exact hState.indexOk.recordValidity _ _
      have hOff :
          hash ∈ branch index.tree
              (state.db.records.tip.getD env.root) →
            hash = env.root := by
        intro hOn
        rw [hTree] at hOn
        cases hSink : env.hasSink with
        | false =>
            rw [hState.tied.now.sinkless hSink,
              Option.getD_none,
              hState.indexOk.branch_genesis,
              List.mem_singleton] at hOn
            exact hOn
        | true =>
            rcases IndexOk.mem_of_find hCandidate.found with
              ⟨hMember, rfl⟩
            rw [← hState.tip_eq hSink
              (hQuiet.fine (hFine hSink))] at hOn
            exact absurd hOn
              (hState.indexOk.tree.not_mem_branch_parent
                (IndexOk.link_mem hMember)
                hCandidate.parent)
      refine ⟨hShelf, ?_, ?_⟩
      · refine Tied.entryCommit hEntry ?_
        refine ⟨?_, hState.tied.moments⟩
        rw [← hQuiet.records] at hOff
        exact (hState.tied.now.quiet hIndex hTree hSame
          hQuiet).recordFailure hOff
      · refine Following.entryCommit hEntry ?_
        exact hState.following.same rfl
          (congrArg Records.tip hQuiet.records) hQuiet.fine
  | @connected entry block result before db undoDb coins
      stored written middle after hCandidate hBefore hRun
      hUndo hEntry hTip =>
      have hQuiet :=
        hBefore.trans (connectBlock_trusted hRun).1
      have hTree := hState.indexOk.tree
      rcases IndexOk.mem_of_find hCandidate.found with
        ⟨hMember, hHash⟩
      have hUndone :
          undoDb.records.index = state.db.records.index ∧
            undoDb.records.blocks =
              state.db.records.blocks ∧
            undoDb.records.tip = state.db.records.tip ∧
            (undoDb.faulted = false →
              state.db.faulted = false) := by
        cases hUndo with
        | refused hFails =>
            rw [hCalm .putUndo _ (by simp)] at hFails
            cases hFails
        | written =>
            simp only [recordUndo, hQuiet.records, true_and]
            exact hQuiet.fine
      rcases hUndone with ⟨hIndex, hBlocks, hTipSame, hLatch⟩
      have hNow : ∀ other : BlockIndex,
          IndexOk env.crypto env.params other →
          other.tree = state.index.tree →
          (∀ hash,
            other.eligible hash =
              state.index.eligible hash) →
            Anchored env other undoDb.records := by
        intro other hOk hOther hSame
        exact hState.tied.now.same hOk hOther hSame hIndex
          (by rw [hBlocks]; exact fun _ => id) hTipSame
      have hRaised := (hState.indexOk.recordValidity hash
        .body).recordValidity hash .full
      have hMiddle : Tied env middle := by
        refine Tied.entryCommit hEntry ?_
        refine ⟨hNow _ hRaised (by simp) (by simp), ?_⟩
        intro moment hMoment
        rcases List.mem_cons.mp hMoment with rfl | hOld
        · exact hNow _ (hState.indexOk.recordValidity _ _)
            (by simp) (by simp)
        · exact hState.tied.moments moment hOld
      rcases hEntry.frame with
        ⟨hIndexSame, hChain, -, -, hBlocksSame, -⟩
      refine ⟨hShelf, ?_, ?_⟩
      · refine hMiddle.tipCommit hCalm hTip ?_
        intro hSink hFine
        have hFound :
            (((state.index.recordValidity hash
                  .body).recordValidity hash .full).find
                hash).isSome = true := by
          rw [BlockIndex.find_recordValidity,
            BlockIndex.find_recordValidity, hCandidate.found]
          rfl
        rcases hEntry.recorded hSink hFound hFine with
          ⟨hUndoFine, hHeader⟩
        have hBelow := (hState.backed hSink
          (hLatch hUndoFine)).same
            (show middle.index.tree = state.index.tree by
              rw [hIndexSame]; simp)
            (show ∀ hash, middle.index.eligible hash =
                state.index.eligible hash by
              rw [hIndexSame]; simp)
            (fun wanted hOld => hEntry.lookup (by
              rw [hIndex]; exact hOld))
            (by
              rw [hBlocksSame, hBlocks]
              exact fun _ => id)
        have hTipNow : middle.tip = hash := by
          rw [ChainState.tip, hChain]
          rfl
        have hMiddleOk :
            IndexOk env.crypto env.params middle.index := by
          rw [hIndexSame]
          exact hRaised
        have hLink : entry.toLink ∈ middle.index.tree := by
          rw [hIndexSame]
          simpa using IndexOk.link_mem hMember
        rw [hTipNow, ← hHash]
        refine hBelow.child hMiddleOk hLink hCandidate.parent
          ?_ ?_ ?_
        · rw [hIndexSame, hHash]
          simpa using hEligible
        · rw [hHash]
          exact hHeader
        · rw [hBlocksSame, hBlocks, hHash, hCandidate.body]
          rfl
      · refine Following.tipCommit hCalm hTip ?_
        rw [ChainState.tip, hChain]
        rfl

end Moored

end Amarian
