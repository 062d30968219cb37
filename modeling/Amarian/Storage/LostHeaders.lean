import Amarian.Storage.Reloading

/-
  What a process finds when an earlier one stopped early.

  Whatever the store refused, and at whatever write the
  process stopped, the records are of headers that it knew.
  They open again exactly if none of them has lost its
  parent and none of them rules out the committed tip.

  Key definitions include:
    * `ShelfOk`
    * `OnShelf`
    * `Reopens`
    * `Reopened`

  Key theorems include:
    * `OnShelf.runFrom`
    * `MomentOk.restart`
    * `restart_lost_headers`
-/

namespace Amarian

variable {tree : List Link} {shelf : Shelf}
variable {index : BlockIndex}
------------------------------------------------------------
-- Runs
------------------------------------------------------------

variable {fits : Link → StoredHeader → Prop}

/- What is on record at a moment are headers it knew of. -/
structure MomentOk
    (env : ChainEnv)
    (fits : Link → StoredHeader → Prop)
    (moment : Moment) : Prop where
  tree : TreeOk env.crypto env.params moment.index.tree
  shelved :
    Shelved fits moment.index.tree moment.db.records.index
  bodies : BodiesOf env .univ moment.db.records.blocks

/- And so it is now, and was at every moment of the call. -/
structure ShelfOk
    (env : ChainEnv)
    (fits : Link → StoredHeader → Prop)
    (state : ChainState) : Prop where
  now : MomentOk env fits ⟨state.db, state.index⟩
  moments :
    ∀ moment ∈ state.moments, MomentOk env fits moment

theorem Shelved.grow
    (hShelved : Shelved fits tree shelf)
    (link : Link) :
    Shelved fits (link :: tree) shelf := by
  intro hash record hFound
  rcases hShelved hash record hFound with
    ⟨other, hOther, hRest⟩
  exact ⟨other, List.mem_cons_of_mem _ hOther, hRest⟩

/- An entry is recorded as it is in the index. -/
theorem Shelved.insert
    (hShelved : Shelved fits index.tree shelf)
    {entry : BlockIndexEntry}
    (hEntry : entry ∈ index.entries)
    (hFits :
      fits entry.toLink (ChainDb.storedHeader entry)) :
    Shelved fits index.tree
      (shelf.insert entry.hash
        (ChainDb.storedHeader entry)) := by
  intro hash record hFound
  by_cases hHash : hash = entry.hash
  · subst hHash
    rw [AList.lookup_insert, Option.some_inj] at hFound
    subst hFound
    exact ⟨entry.toLink, IndexOk.link_mem hEntry, rfl, rfl,
      hFits⟩
  · rw [AList.lookup_insert_ne hHash] at hFound
    exact hShelved hash record hFound

namespace ShelfOk

variable {env : ChainEnv} {state after : ChainState}

theorem fresh
    (env : ChainEnv)
    (fits : Link → StoredHeader → Prop) :
    ShelfOk env fits (.fresh env.crypto env.params) where
  now :=
    { tree := TreeOk.genesis
      shelved := by
        intro hash record hFound
        exact absurd hFound (by
          simp [ChainState.fresh, ChainDb.empty,
            Records.empty])
      bodies := by
        intro hash block hFound
        cases hFound }
  moments := by simp [ChainState.fresh]

/- What neither adds a header nor records one. -/
theorem same
    (hShelf : ShelfOk env fits state)
    (hTree : after.index.tree = state.index.tree)
    (hRecords :
      after.db.records.index = state.db.records.index)
    (hBodies : BodiesOf env .univ after.db.records.blocks)
    (hMoments :
      ∀ moment ∈ after.moments,
        moment ∈ state.moments ∨
          moment.index.tree = state.index.tree ∧
            moment.db.records.index =
              state.db.records.index ∧
            moment.db.records.blocks =
              after.db.records.blocks) :
    ShelfOk env fits after where
  now := by
    rcases hShelf.now with ⟨hOk, hShelved, -⟩
    constructor
    · rw [hTree]
      exact hOk
    · simp only [hTree, hRecords]
      exact hShelved
    · exact hBodies
  moments := by
    intro moment hMoment
    rcases hMoments moment hMoment with
      hOld | ⟨hLinks, hIndex, hBlocks⟩
    · exact hShelf.moments moment hOld
    · constructor
      · rw [hLinks]
        exact hShelf.now.tree
      · rw [hLinks, hIndex]
        exact hShelf.now.shelved
      · rw [hBlocks]
        exact hBodies

theorem quiet
    (hShelf : ShelfOk env fits state)
    {db : ChainDb}
    (hQuiet : DbQuiet env.plan state.db db) :
    ShelfOk env fits { state with db } :=
  hShelf.same rfl (by simp [hQuiet.records])
    (by simpa [hQuiet.records] using hShelf.now.bodies)
    fun _ hMoment => .inl hMoment

/- A write that records no header is one more moment. -/
theorem wrote
    (hShelf : ShelfOk env fits state)
    {db : ChainDb}
    (hRecords : db.records.index = state.db.records.index)
    (hBodies : BodiesOf env .univ db.records.blocks) :
    ShelfOk env fits (state.wrote db) := by
  refine hShelf.same rfl hRecords hBodies ?_
  intro moment hMoment
  rcases List.mem_cons.mp hMoment with rfl | hOld
  · exact .inr ⟨rfl, hRecords, rfl⟩
  · exact .inl hOld

theorem entryCommit
    (hFits :
      ∀ entry : BlockIndexEntry,
        fits entry.toLink (ChainDb.storedHeader entry))
    (hShelf : ShelfOk env fits state)
    {hash : Hash256}
    (hEntry : EntryCommit env hash state after) :
    ShelfOk env fits after := by
  cases hEntry with
  | skipped => exact hShelf
  | @issued entry written db hSink hFound hWrite =>
      rcases IndexOk.mem_of_find hFound with ⟨hMember, -⟩
      cases hWrite with
      | written =>
          have hNow : MomentOk env fits
              ⟨{ state.db with
                  records := recordEntry entry
                    state.db.records
                  operations := state.db.operations + 1 },
                state.index⟩ :=
            ⟨hShelf.now.tree,
              hShelf.now.shelved.insert hMember
                (hFits entry),
              hShelf.now.bodies⟩
          refine ⟨hNow, ?_⟩
          intro moment hMoment
          rcases List.mem_cons.mp hMoment with rfl | hOld
          · exact hNow
          · exact hShelf.moments moment hOld
      | refused => exact hShelf.wrote rfl hShelf.now.bodies

theorem tipCommit
    (hShelf : ShelfOk env fits state)
    {written : Bool}
    (hTip : TipCommit env state written after) :
    ShelfOk env fits after := by
  cases hTip with
  | skipped => exact hShelf
  | blocked => exact hShelf.wrote rfl hShelf.now.bodies
  | @issued written db hSink hFine hWrite =>
      have hRecords :
          db.records.index = state.db.records.index := by
        cases hWrite <;> rfl
      have hBlocks :
          db.records.blocks = state.db.records.blocks := by
        cases hWrite <;> rfl
      have hWrote := hShelf.wrote hRecords (by
        rw [hBlocks]
        exact hShelf.now.bodies)
      exact ⟨hWrote.now, hWrote.moments⟩

theorem disconnectStep
    (hShelf : ShelfOk env fits state)
    {outcome : Except ActivationFailure Unit}
    (hStep : DisconnectStep env state outcome after) :
    ShelfOk env fits after := by
  cases hStep with
  | stopped hQuiet => exact hShelf.quiet hQuiet
  | moved hFound hParent hBlock hUndo hBefore hRun hTip =>
      have hQuiet :=
        hBefore.trans (disconnectBlock_trusted hRun).1
      refine tipCommit ?_ hTip
      exact hShelf.same rfl (by simp [hQuiet.records])
        (by simpa [hQuiet.records] using hShelf.now.bodies)
        fun _ hMoment => .inl hMoment

theorem connectStep
    (hFits :
      ∀ entry : BlockIndexEntry,
        fits entry.toLink (ChainDb.storedHeader entry))
    (hShelf : ShelfOk env fits state)
    (hIndex : IndexOk env.crypto env.params state.index)
    {hash : Hash256}
    {outcome : Except ActivationFailure Bool}
    (hStep : ConnectStep env hash state outcome after) :
    ShelfOk env fits after := by
  cases hStep with
  | stopped hQuiet => exact hShelf.quiet hQuiet
  | suspended hCandidate hRefusal =>
      rcases hRefusal.frame with ⟨hTree, -, hQuiet⟩
      exact hShelf.same hTree (by simp [hQuiet.records])
        (by simpa [hQuiet.records] using hShelf.now.bodies)
        fun _ hMoment => .inl hMoment
  | @refused entry block index db after hCandidate hRefusal
      hFine hEntry =>
      rcases hRefusal.frame with ⟨hTree, -, hQuiet⟩
      have hOk : IndexOk env.crypto env.params index := by
        cases hRefusal with
        | body => exact hIndex
        | coins => exact hIndex.recordValidity _ _
      refine entryCommit hFits ?_ hEntry
      refine hShelf.same ?_ (by simp [hQuiet.records])
        (by simpa [hQuiet.records] using hShelf.now.bodies)
        fun _ hMoment => .inl hMoment
      exact (BlockIndex.recordFailure_tree hOk hash).trans
        hTree
  | @connected entry block result before db undoDb coins
      stored written middle after hCandidate hBefore hRun
      hUndo hEntry hTip =>
      have hQuiet :=
        hBefore.trans (connectBlock_trusted hRun).1
      have hRecords :
          undoDb.records.index = state.db.records.index := by
        rw [← hQuiet.records]
        cases hUndo <;> rfl
      have hBlocks :
          undoDb.records.blocks =
            state.db.records.blocks := by
        rw [← hQuiet.records]
        cases hUndo <;> rfl
      refine tipCommit (entryCommit hFits ?_ hEntry) hTip
      refine hShelf.same (by simp) hRecords
        (by simpa [hBlocks] using hShelf.now.bodies) ?_
      intro moment hMoment
      rcases List.mem_cons.mp hMoment with rfl | hOld
      · exact .inr ⟨by simp, hRecords, rfl⟩
      · exact .inl hOld

theorem addHeader
    (hShelf : ShelfOk env fits state)
    (hIndex : IndexOk env.crypto env.params state.index)
    {header : BlockHeader}
    {time : Int64}
    {index : BlockIndex}
    (hAdded :
      state.index.addHeader env.crypto env.params header
        time = .ok index) :
    ShelfOk env fits { state with index } := by
  have hTree := (hIndex.addHeader hAdded).tree
  refine ⟨⟨hTree, ?_, hShelf.now.bodies⟩, hShelf.moments⟩
  rcases BlockIndex.addHeader_eq_ok.mp hAdded with
    ⟨rfl, -⟩ | ⟨-, parent, -, -, -, -, rfl⟩
  · exact hShelf.now.shelved
  · exact hShelf.now.shelved.grow _

end ShelfOk

/- The invariant of a run over any store at all. -/
structure OnShelf
    (env : ChainEnv)
    (fits : Link → StoredHeader → Prop)
    (state : ChainState) : Prop where
  rooted : Rooted env state
  shelf : ShelfOk env fits state
  fitting :
    ∀ entry : BlockIndexEntry,
      fits entry.toLink (ChainDb.storedHeader entry)

namespace OnShelf

variable {env : ChainEnv} {state after : ChainState}

theorem headerStep
    (hState : OnShelf env fits state)
    {header : BlockHeader}
    {time : Int64}
    (hStep : HeaderStep env header time state after) :
    OnShelf env fits after := by
  refine ⟨hState.rooted.headerStep hStep, ?_,
    hState.fitting⟩
  have hIndex := hState.rooted.sourced.index
  cases hStep with
  | unchanged => exact hState.shelf
  | indexed hIndexed hEntry =>
      exact (hState.shelf.addHeader hIndex
        hIndexed.added).entryCommit hState.fitting hEntry

theorem blockStep
    (hState : OnShelf env fits state)
    {block : Block}
    {time : Int64}
    (hStep : BlockStep env block time state after) :
    OnShelf env fits after := by
  have hRooted := hState.rooted.blockStep hStep
  refine ⟨hRooted, ?_, hState.fitting⟩
  have hIndex := hState.rooted.sourced.index
  have hBodies := hRooted.sourced.bodies
  cases hStep with
  | unchanged => exact hState.shelf
  | known hIndexed hQuiet =>
      exact (hState.shelf.addHeader hIndex
        hIndexed.added).quiet hQuiet
  | refused hIndexed hQuiet hAbsent hFails hEntry =>
      have hAdded := (hState.shelf.addHeader hIndex
        hIndexed.added).quiet hQuiet
      refine ShelfOk.entryCommit hState.fitting ?_ hEntry
      exact hAdded.same
        (BlockIndex.recordFailure_tree
          (hIndex.addHeader hIndexed.added) _) rfl
        hAdded.now.bodies fun _ hMoment => .inl hMoment
  | @stored index db bodyDb written after hIndexed hQuiet
      hAbsent hPasses hBody hEntry =>
      have hAdded := hState.shelf.addHeader hIndex
        hIndexed.added
      have hRecords :
          bodyDb.records.index = state.db.records.index := by
        rw [← hQuiet.records]
        cases hBody <;> rfl
      rcases hEntry.frame with ⟨-, -, -, -, hBlocks, -⟩
      rw [hBlocks] at hBodies
      refine ShelfOk.entryCommit hState.fitting ?_ hEntry
      refine hAdded.same (by simp) hRecords hBodies ?_
      intro moment hMoment
      rcases List.mem_cons.mp hMoment with rfl | hOld
      · exact .inr ⟨rfl, hRecords, rfl⟩
      · exact .inl hOld

theorem reset
    (hState : OnShelf env fits state) :
    OnShelf env fits
      { state with
        moments := [⟨state.db, state.index⟩] } := by
  refine ⟨hState.rooted.reset _, ⟨hState.shelf.now, ?_⟩,
    hState.fitting⟩
  intro moment hMoment
  rw [List.mem_singleton.mp hMoment]
  exact hState.shelf.now

theorem kept :
    Kept env (OnShelf env fits) where
  filed := fun _ hState =>
    Rooted.kept.filed _ hState.rooted
  quiet := fun _ _ hState hQuiet =>
    ⟨hState.rooted.quiet hQuiet, hState.shelf.quiet hQuiet,
      hState.fitting⟩
  disconnect := fun _ _ _ hState hStep =>
    ⟨hState.rooted.disconnectStep hStep,
      hState.shelf.disconnectStep hStep, hState.fitting⟩
  connect := fun _ _ _ _ hState hStep =>
    ⟨hState.rooted.connectStep hStep,
      hState.shelf.connectStep hState.fitting
        hState.rooted.sourced.index hStep,
      hState.fitting⟩

theorem step
    (hState : OnShelf env fits state)
    (call : Call) :
    OnShelf env fits (Amarian.step env state call) := by
  have hStart := hState.reset
  cases call with
  | acceptHeader header time =>
      exact hStart.headerStep (acceptHeader_spec header time _)
  | acceptBlock block time =>
      exact hStart.blockStep (acceptBlock_spec block time _)
  | activateBestChain =>
      exact kept.activateBestChain hStart

theorem runFrom
    (hState : OnShelf env fits state)
    (calls : List Call) :
    OnShelf env fits (Amarian.runFrom env state calls) := by
  induction calls generalizing state with
  | nil => exact hState
  | cons call calls ih => exact ih (hState.step call)

theorem moment
    (hState : OnShelf env fits state)
    {moment : Moment}
    (hMember :
      moment ∈ (⟨state.db, state.index⟩ :: state.moments)) :
    MomentOk env fits moment := by
  rcases List.mem_cons.mp hMember with rfl | hOld
  · exact hState.shelf.now
  · exact hState.shelf.moments moment hOld

end OnShelf

------------------------------------------------------------
-- Starting Anew
------------------------------------------------------------

/- When the reads succeed, all depends on what is stored. -/
theorem loadChain_of_reads
    {plan : FaultPlan}
    (hReads : ∀ number, plan .read number = false)
    (c : Crypto)
    (params : ChainParams)
    (now : Int64)
    (db : ChainDb) :
    loadChain c params plan now db =
      (restoreChain c params now
          ((db.records.index.entries.map
              Sigma.snd).insertionSort
            fun left right =>
              left.sequence ≤ right.sequence)
          db.records.tip,
        { db with operations := db.operations + 2 }) := by
  simp [loadChain, ChainDb.loadHeaders, ChainDb.loadTip,
    ChainDb.readRecord, ChainDb.attempt, hReads, bind,
    StateT.bind, get, getThe, MonadStateOf.get, StateT.get,
    pure, stateT_pure_apply]

/-
  No header is on record without its parent, and nothing on
  record rules the committed tip out.
-/
structure Reopens
    (c : Crypto)
    (moment : Moment) : Prop where
  closed :
    ParentClosed (isShelved moment.db.records.index)
      moment.index.tree
  standing :
    ∀ tip, moment.db.records.tip = some tip →
      Standing c moment.index.tree
        moment.db.records.index tip

/-
  The headers on record are there again, with the height,
  the work, the parent and the rank each of them had, and
  the chain is the line of the committed tip.
-/
structure Reopened
    (c : Crypto)
    (params : ChainParams)
    (moment : Moment)
    (state : ChainState) : Prop where
  ok : IndexOk c params state.index
  recorded :
    ∀ old ∈ moment.index.tree,
      isShelved moment.db.records.index old = true →
        ∃ link ∈ state.index.tree,
          link.unordered = old.unordered
  known :
    ∀ link ∈ state.index.tree,
      ∃ old ∈ moment.index.tree,
        isShelved moment.db.records.index old = true ∧
          link.unordered = old.unordered
  order :
    ∀ first ∈ moment.index.tree,
      ∀ second ∈ moment.index.tree,
        ∀ firstTwin ∈ state.index.tree,
          ∀ secondTwin ∈ state.index.tree,
            firstTwin.hash = first.hash →
              secondTwin.hash = second.hash →
                (firstTwin.outranks secondTwin ↔
                  first.outranks second)
  eligible :
    ∀ hash,
      state.index.eligible hash = true ↔
        Standing c moment.index.tree
          moment.db.records.index hash
  chain :
    state.chain =
      branch moment.index.tree
        (moment.db.records.tip.getD
          ((buildGenesisBlock c params).header.hash c))
  coins : state.coins = .empty
  records : state.db.records = moment.db.records


theorem restart_eq_ok
    {env : ChainEnv}
    {later : FaultPlan}
    (hReads : ∀ number, later .read number = false)
    {now : Int64}
    {moment : Moment}
    (hMoment : MomentOk env fits moment)
    (hOrder :
      InOrder moment.index.tree moment.db.records.index)
    {state : ChainState} :
    restart { env with plan := later } now moment.db =
        .ok state ↔
      ∃ loaded,
        restoreChain env.crypto env.params now
            (recordsOf moment.index.tree
              moment.db.records.index)
            moment.db.records.tip =
          .ok loaded ∧
          state =
            { index := loaded.index
              chain := resumeAt loaded.index loaded.tip
              coins := .empty
              db :=
                { moment.db with
                  faulted := false
                  operations := moment.db.operations + 2 }
              moments := [] } := by
  unfold restart
  rw [loadChain_of_reads hReads,
    sorted_records hMoment.tree hMoment.shelved hOrder]
  cases restoreChain env.crypto env.params now
      (recordsOf moment.index.tree moment.db.records.index)
      moment.db.records.tip with
  | error error => simp [Except.map]
  | ok loaded => simp [Except.map, eq_comm]

/- The tip to resume at is one of the headers on record. -/
theorem Restored.tip_kept
    {env : ChainEnv}
    {moment : Moment}
    (hMoment : MomentOk env fits moment)
    (hReopens : Reopens env.crypto moment)
    {loaded : LoadedChain}
    (hRestored :
      Restored env.crypto env.params moment.index.tree
        moment.db.records.index moment.db.records.tip
        loaded) :
    ∃ link ∈ moment.index.tree,
      link.hash = loaded.tip ∧
        isShelved moment.db.records.index link = true := by
  rw [hRestored.tip]
  cases hTip : moment.db.records.tip with
  | none =>
      exact ⟨_, hMoment.tree.root_mem, rfl,
        isShelved_root rfl⟩
  | some tip =>
      rcases hReopens.standing tip hTip with
        ⟨link, hLink, hHash, hKeep, -⟩
      exact ⟨link, hLink, hHash, hKeep⟩

/- The resumed chain is the line of the committed tip. -/
theorem Restored.resumed
    {env : ChainEnv}
    {moment : Moment}
    (hMoment : MomentOk env fits moment)
    (hReopens : Reopens env.crypto moment)
    {loaded : LoadedChain}
    (hRestored :
      Restored env.crypto env.params moment.index.tree
        moment.db.records.index moment.db.records.tip
        loaded) :
    resumeAt loaded.index loaded.tip =
      branch moment.index.tree loaded.tip := by
  have hRoots : ∀ link ∈ moment.index.tree,
      link.parent = none →
        isShelved moment.db.records.index link = true :=
    fun link _ hNone => isShelved_root hNone
  rcases hRestored.tip_kept hMoment hReopens with
    ⟨link, hLink, hHash, hKeep⟩
  have hBranch :
      resumeAt loaded.index loaded.tip =
        branch loaded.index.tree loaded.tip := rfl
  rw [hBranch, hRestored.links, ← hHash]
  exact hMoment.tree.branch_survivors hRoots
    hReopens.closed hLink hKeep

/-
  What is left behind opens again exactly if no header was
  lost from below another one, and the tip is on record and
  not ruled out there.
-/
theorem MomentOk.restart
    {env : ChainEnv}
    {later : FaultPlan}
    (hReads : ∀ number, later .read number = false)
    {now : Int64}
    {moment : Moment}
    (hMoment : MomentOk env fits moment)
    (hOrder :
      InOrder moment.index.tree moment.db.records.index) :
    ((∃ fresh,
        Amarian.restart { env with plan := later } now
            moment.db =
          .ok fresh) ↔
      Reopens env.crypto moment) ∧
      ∀ fresh,
        Amarian.restart { env with plan := later } now
            moment.db =
          .ok fresh →
          Reopened env.crypto env.params moment fresh := by
  rcases restoreChain_records hMoment.tree hMoment.shelved
    now moment.db.records.tip with ⟨hIff, hRestores⟩
  have hOpens :
      (∃ fresh,
          Amarian.restart { env with plan := later } now
              moment.db =
            .ok fresh) ↔
        Reopens env.crypto moment := by
    constructor
    · rintro ⟨fresh, hFresh⟩
      rcases (restart_eq_ok hReads hMoment hOrder).mp hFresh
        with ⟨loaded, hLoaded, -⟩
      rcases hIff.mp ⟨loaded, hLoaded⟩ with
        ⟨hClosed, hStanding⟩
      exact ⟨hClosed, hStanding⟩
    · intro hReopens
      rcases hIff.mpr
        ⟨hReopens.closed, hReopens.standing⟩ with
        ⟨loaded, hLoaded⟩
      exact ⟨_, (restart_eq_ok hReads hMoment hOrder).mpr
        ⟨loaded, hLoaded, rfl⟩⟩
  refine ⟨hOpens, ?_⟩
  intro fresh hFresh
  have hReopens := hOpens.mp ⟨fresh, hFresh⟩
  rcases (restart_eq_ok hReads hMoment hOrder).mp hFresh with
    ⟨loaded, hLoaded, rfl⟩
  have hRestored := hRestores loaded hLoaded
  constructor
  · exact hRestored.ok
  · intro old hOld hKeep
    rcases exists_survivor hOld hKeep with
      ⟨twin, hTwin, hSame⟩
    exact ⟨twin, by rw [hRestored.links]; exact hTwin, hSame⟩
  · intro link hLink
    rw [hRestored.links] at hLink
    rcases mem_survivors hLink with
      ⟨old, hOld, hKeep, hSame⟩
    exact ⟨old, hOld, hKeep, hSame⟩
  · intro first hFirst second hSecond firstTwin hFirstTwin
      secondTwin hSecondTwin
    rw [hRestored.links] at hFirstTwin hSecondTwin
    exact hMoment.tree.outranks_survivors hFirst hSecond
      hFirstTwin hSecondTwin
  · exact hRestored.eligible
  · rw [← hRestored.tip]
    exact hRestored.resumed hMoment hReopens
  · rfl
  · rfl

/-
  The process can stop after any write of any call, whatever
  the store refused before.
-/
theorem restart_lost_headers
    (env : ChainEnv)
    (calls : List Call)
    (later : FaultPlan)
    (hReads : ∀ number, later .read number = false)
    (now : Int64) :
    ∀ moment ∈
        (⟨(run env calls).db, (run env calls).index⟩ ::
          (run env calls).moments),
      ((∃ fresh,
          restart { env with plan := later } now moment.db =
            .ok fresh) ↔
        Reopens env.crypto moment) ∧
        ∀ fresh,
          restart { env with plan := later } now moment.db =
            .ok fresh →
            Reopened env.crypto env.params moment fresh := by
  intro moment hMember
  have hState : OnShelf env Numbered (run env calls) :=
    OnShelf.runFrom
      ⟨Rooted.fresh env, ShelfOk.fresh env Numbered,
        fun _ => rfl⟩
      calls
  have hMoment := hState.moment hMember
  exact hMoment.restart hReads
    (hMoment.shelved.inOrder hMoment.tree)

namespace Sample

/- The records of one header are refused, and nothing else. -/
def losing : FaultPlan := fun op _ =>
  match op with
  | .commitHeader record => record.header = b1.header
  | _ => false

/- A run over the store that loses one header. -/
def lostHeader (calls : List Call) : ChainState :=
  run { env with plan := losing } calls

theorem lostHeader_eq
    (calls : List Call) :
    lostHeader calls =
      run { recalledEnv with plan := losing } calls := by
  rw [lostHeader, env_eq]

/- The header that is lost has no header above it; the ones
   beside it are on record, and one of them is the tip. -/
def lostLeafCalls : List Call :=
  [.acceptBlock a1 genesisTimestamp, .activateBestChain,
    .acceptHeader b1.header genesisTimestamp,
    .acceptHeader c1.header genesisTimestamp]

/- What that run leaves. -/
def lostLeaf : ChainState :=
  lostHeader lostLeafCalls

theorem lostLeaf_records :
    (lostLeaf.index.find b1Hash).isSome = true ∧
      lostLeaf.db.records.index.lookup b1Hash = none ∧
      (lostLeaf.db.records.index.lookup a1Hash).isSome =
        true ∧
      (lostLeaf.db.records.index.lookup c1Hash).isSome =
        true ∧
      lostLeaf.db.records.tip = some a1Hash := by
  rw [lostLeaf, lostHeader_eq]
  decide +kernel

end Sample

/- The store opens without the header that was lost. -/
theorem restart_lostLeaf :
    Sample.lostLeaf.db.records.index.lookup Sample.b1Hash =
        none ∧
      ∃ fresh,
        restart { Sample.env with plan := fun _ _ => false }
            0 Sample.lostLeaf.db =
          .ok fresh ∧
          Reopened Sample.env.crypto Sample.env.params
            ⟨Sample.lostLeaf.db, Sample.lostLeaf.index⟩
            fresh := by
  have hOpens := restart_lost_headers
    { Sample.env with plan := Sample.losing }
    Sample.lostLeafCalls (fun _ _ => false) (fun _ => rfl) 0
    ⟨Sample.lostLeaf.db, Sample.lostLeaf.index⟩
    (List.mem_cons_self ..)
  have hOk :
      (restart { Sample.env with plan := fun _ _ => false }
          0 Sample.lostLeaf.db).isOk = true := by
    rw [Sample.lostLeaf, Sample.lostHeader_eq, Sample.env_eq]
    decide +kernel
  refine ⟨Sample.lostLeaf_records.2.1, ?_⟩
  dsimp only at hOpens
  cases hFresh :
      restart { Sample.env with plan := fun _ _ => false } 0
        Sample.lostLeaf.db with
  | error failure =>
      rw [hFresh] at hOk
      cases hOk
  | ok fresh => exact ⟨fresh, rfl, hOpens.2 fresh hFresh⟩

end Amarian
