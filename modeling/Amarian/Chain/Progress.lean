import Amarian.Chain.Paths
import Amarian.Chain.Soundness

/-
  Moving the tip over a store that refuses nothing.

  Reverting always works there, and a block that is tried
  goes on exactly if it connects.

  Key definitions include:
    * `LiveState`
    * `Connects`
    * `Tried`
    * `Climbed`

  Key theorems include:
    * `LiveState.run`
    * `disconnectAll_spec`
    * `connectAll_spec`
-/

------------------------------------------------------------
-- Live States
------------------------------------------------------------

namespace Amarian

/- Sound, and nothing went wrong so far. -/
structure LiveState
    (env : ChainEnv)
    (state : ChainState) : Prop where
  sound : SoundState env state
  fine : state.db.faulted = false

variable {env : ChainEnv} {state after : ChainState}

theorem RecordWrite.of_reliable
    {op : DbOp}
    {change : Records → Records}
    {db after : ChainDb}
    {written : Bool}
    (hPlan : Reliable env.plan)
    (hWrite :
      RecordWrite env.plan op change db written after) :
    written = true ∧ after.faulted = db.faulted ∧
      after.records = change db.records := by
  cases hWrite with
  | written => exact ⟨rfl, rfl, rfl⟩
  | refused hFails =>
      rw [hPlan] at hFails
      cases hFails

theorem EntryCommit.faulted
    {hash : Hash256}
    (hPlan : Reliable env.plan)
    (hEntry : EntryCommit env hash state after) :
    after.db.faulted = state.db.faulted := by
  cases hEntry with
  | skipped => rfl
  | issued hSink hFound hWrite =>
      exact (hWrite.of_reliable hPlan).2.1

theorem TipCommit.faulted
    {written : Bool}
    (hPlan : Reliable env.plan)
    (hTip : TipCommit env state written after) :
    after.db.faulted = state.db.faulted := by
  cases hTip with
  | skipped => rfl
  | blocked => rfl
  | issued hSink hFine hWrite =>
      exact (hWrite.of_reliable hPlan).2.1

/- A commit over a store without faults goes through. -/
theorem TipCommit.written
    {written : Bool}
    (hPlan : Reliable env.plan)
    (hFine : state.db.faulted = false)
    (hTip : TipCommit env state written after) :
    written = true := by
  cases hTip with
  | skipped => rfl
  | blocked hSink hFaulted =>
      rw [hFine] at hFaulted
      cases hFaulted
  | issued hSink hOff hWrite =>
      exact (hWrite.of_reliable hPlan).1

theorem DisconnectStep.faulted
    {outcome : Except ActivationFailure Unit}
    (hPlan : Reliable env.plan)
    (hStep : DisconnectStep env state outcome after) :
    after.db.faulted = state.db.faulted := by
  cases hStep with
  | stopped hQuiet => exact hQuiet.calm hPlan.calm
  | moved hFound hParent hBlock hUndo hBefore hRun hTip =>
      have hQuiet :=
        hBefore.trans (disconnectBlock_trusted hRun).1
      rw [hTip.faulted hPlan]
      exact hQuiet.calm hPlan.calm

theorem ConnectStep.faulted
    {hash : Hash256}
    {outcome : Except ActivationFailure Bool}
    (hPlan : Reliable env.plan)
    (hStep : ConnectStep env hash state outcome after) :
    after.db.faulted = state.db.faulted := by
  cases hStep with
  | stopped hQuiet => exact hQuiet.calm hPlan.calm
  | suspended hCandidate hRefusal =>
      exact hRefusal.frame.2.2.calm hPlan.calm
  | refused hCandidate hRefusal hFine hEntry =>
      rw [hEntry.faulted hPlan]
      exact hRefusal.frame.2.2.calm hPlan.calm
  | connected hCandidate hBefore hRun hUndo hEntry hTip =>
      have hQuiet :=
        hBefore.trans (connectBlock_trusted hRun).1
      rw [hTip.faulted hPlan, hEntry.faulted hPlan]
      exact (hUndo.of_reliable hPlan).2.1.trans
        (hQuiet.calm hPlan.calm)

theorem HeaderStep.faulted
    {header : BlockHeader}
    {now : Int64}
    (hPlan : Reliable env.plan)
    (hStep : HeaderStep env header now state after) :
    after.db.faulted = state.db.faulted := by
  cases hStep with
  | unchanged => rfl
  | indexed hIndexed hEntry => rw [hEntry.faulted hPlan]

theorem BlockStep.faulted
    {block : Block}
    {now : Int64}
    (hPlan : Reliable env.plan)
    (hStep : BlockStep env block now state after) :
    after.db.faulted = state.db.faulted := by
  cases hStep with
  | unchanged => rfl
  | known hIndexed hQuiet => exact hQuiet.calm hPlan.calm
  | refused hIndexed hQuiet hAbsent hFails hEntry =>
      rw [hEntry.faulted hPlan]
      exact hQuiet.calm hPlan.calm
  | stored hIndexed hQuiet hAbsent hPasses hBody hEntry =>
      rw [hEntry.faulted hPlan]
      exact (hBody.of_reliable hPlan).2.1.trans
        (hQuiet.calm hPlan.calm)

namespace LiveState

theorem fresh
    (env : ChainEnv) :
    LiveState env (.fresh env.crypto env.params) :=
  ⟨SoundState.fresh env, rfl⟩

theorem kept
    (hPlan : Reliable env.plan) :
    Kept env (LiveState env) where
  filed := fun _ hLive => hLive.sound.ok.ledger.filed
  quiet := fun _ _ hLive hQuiet =>
    ⟨(SoundState.kept hPlan.calm).quiet _ _ hLive.sound
      hQuiet, (hQuiet.calm hPlan.calm).trans hLive.fine⟩
  disconnect := fun _ _ _ hLive hStep =>
    ⟨hLive.sound.disconnectStep hStep,
      (hStep.faulted hPlan).trans hLive.fine⟩
  connect := fun _ _ _ _ hLive hStep =>
    ⟨hLive.sound.connectStep hPlan.calm hStep,
      (hStep.faulted hPlan).trans hLive.fine⟩

theorem reset
    (hLive : LiveState env state)
    (moments : List Moment) :
    LiveState env { state with moments } :=
  ⟨hLive.sound.reset moments, hLive.fine⟩

theorem step
    (hPlan : Reliable env.plan)
    (hLive : LiveState env state)
    (call : Call) :
    LiveState env (Amarian.step env state call) :=
  (kept hPlan).step call
    (fun _ moments hLive => hLive.reset moments)
    (fun _ _ _ _ _ hLive hStep =>
      ⟨hLive.sound.headerStep hStep,
        (hStep.faulted hPlan).trans hLive.fine⟩)
    (fun _ _ _ _ _ hLive hStep =>
      ⟨hLive.sound.blockStep hPlan.calm hStep,
        (hStep.faulted hPlan).trans hLive.fine⟩)
    hLive

theorem runFrom
    (hPlan : Reliable env.plan)
    (hLive : LiveState env state)
    (calls : List Call) :
    LiveState env (Amarian.runFrom env state calls) := by
  induction calls generalizing state with
  | nil => exact hLive
  | cons call calls ih => exact ih (hLive.step hPlan call)

theorem run
    (hPlan : Reliable env.plan)
    (calls : List Call) :
    LiveState env (Amarian.run env calls) :=
  runFrom hPlan (fresh env) calls

end LiveState

------------------------------------------------------------
-- Moving The Tip
------------------------------------------------------------

/- Nothing about the index was judged differently. -/
structure SameIndex
    (before after : BlockIndex) : Prop where
  tree : after.tree = before.tree
  eligible :
    ∀ hash, after.eligible hash = before.eligible hash
  best : after.bestHeader = before.bestHeader

namespace SameIndex

theorem refl
    (index : BlockIndex) :
    SameIndex index index :=
  ⟨rfl, fun _ => rfl, rfl⟩

theorem trans
    {first second third : BlockIndex}
    (hFirst : SameIndex first second)
    (hSecond : SameIndex second third) :
    SameIndex first third :=
  ⟨hSecond.tree.trans hFirst.tree,
    fun hash =>
      (hSecond.eligible hash).trans (hFirst.eligible hash),
    hSecond.best.trans hFirst.best⟩

theorem recordValidity
    (index : BlockIndex)
    (hash : Hash256)
    (reached : BlockValidity) :
    SameIndex index (index.recordValidity hash reached) :=
  ⟨by simp, by simp, rfl⟩

end SameIndex

/- The block, its ancestors and its coins are all in order. -/
def Connects
    (env : ChainEnv)
    (state : ChainState)
    (hash : Hash256) : Prop :=
  ∃ coins,
    replay env.crypto env.params state.db.records.blocks
        (branch state.index.tree hash) =
      some coins

namespace LiveState

/- The entry of the tip, which is never missing. -/
theorem exists_tip
    (hLive : LiveState env state) :
    ∃ link ∈ state.index.tree,
      link.hash = state.tip ∧
        state.chain = branch state.index.tree link.hash :=
  hLive.sound.ok.ledger.tip_branch hLive.sound.ok.index.tree
    state.index.genesis

/- Reverting works wherever there is something to revert. -/
theorem disconnectStep
    (hPlan : Reliable env.plan)
    (hLive : LiveState env state)
    {link : Link}
    {parent : Hash256}
    {outcome : Except ActivationFailure Unit}
    (hLink : link ∈ state.index.tree)
    (hTip : link.hash = state.tip)
    (hParent : link.parent = some parent)
    (hStep : DisconnectStep env state outcome after) :
    outcome = .ok () ∧ after.chain = state.chain.tail := by
  have hCalm := hPlan.calm
  have hSound := hLive.sound
  have hTree := hSound.ok.index.tree
  rcases List.mem_map.mp hLink with ⟨entry, hEntry, rfl⟩
  have hFind := hSound.ok.index.find_of_mem hEntry
  rw [hTip] at hFind
  -- What replaying the chain says about its top block.
  rcases hLive.exists_tip with ⟨tip, -, hSame, hChain⟩
  rw [hSame, ← hTip] at hChain
  rcases hTree.grown.exists_parent hLink hParent with
    ⟨above, hAbove, rfl⟩
  rcases hTree.exists_branch_eq_cons hAbove with ⟨below, hCons⟩
  have hReplay := hSound.synced hCalm
  rw [hChain, hTree.branch_step hLink hParent, hCons]
    at hReplay
  rcases replay_cons.mp hReplay with
    ⟨coins, block, result, hCoins, hBlock, hConnect⟩
  rw [hTip] at hBlock
  cases hStep with
  | stopped hQuiet hBlocked =>
      exfalso
      cases hBlocked (Or.inl hCalm) with
      | unindexed hNone =>
          rw [hFind, Option.bind_some, hParent] at hNone
          cases hNone
      | bodyAbsent hNone =>
          rw [hBlock] at hNone
          cases hNone
      | undoAbsent hNone =>
          have hUndo := (hSound.ok.ledger.synced
            (Or.inl hCalm)).undo state.tip (by
              rw [hChain, hTree.branch_step hLink hParent,
                hCons, List.dropLast_cons_cons, hTip]
              exact List.mem_cons_self ..)
          rw [hNone] at hUndo
          cases hUndo
      | @rejected found undo error hFound hUndo hRejected =>
          rw [hBlock, Option.some_inj] at hFound
          subst hFound
          have hTop := (hSound.undos state.tip undo hUndo).2
          rw [← hTip, hTree.branch_step hLink hParent]
            at hTop
          rcases replayTop_cons.mp hTop with
            ⟨before, other, made, last, hBefore, hOther, hMade,
              rfl⟩
          rw [hTip, hBlock, Option.some_inj] at hOther
          subst hOther
          rw [hCons, hCoins, Option.some_inj] at hBefore
          subst hBefore
          rw [hConnect] at hMade
          cases hMade
          rw [Utxo.disconnectBlock_connectBlock hConnect]
            at hRejected
          cases hRejected
  | moved hFound hParent hBlock hUndo hBefore hRun hTip =>
      have hQuiet :=
        hBefore.trans (disconnectBlock_trusted hRun).1
      have hFine := (hQuiet.calm hCalm).trans hLive.fine
      rw [hTip.written hPlan hFine, hTip.frame.2.1]
      exact ⟨rfl, rfl⟩

end LiveState

/-
  A block was tried on top of the chain.  It went on if it
  connects, and it and everything above it is ruled out if
  it does not.
-/
inductive Tried
    (env : ChainEnv)
    (state : ChainState)
    (link : Link) :
    Except ActivationFailure Bool → ChainState → Prop
  | applied
      {after : ChainState}
      (hConnects : Connects env state link.hash)
      (hIndex : SameIndex state.index after.index)
      (hChain : after.chain = link.hash :: state.chain) :
      Tried env state link (.ok true) after
  | ruledOut
      {after : ChainState}
      (hFails : ¬Connects env state link.hash)
      (hTree : after.index.tree = state.index.tree)
      (hEligible :
        ∀ hash,
          after.index.eligible hash =
            (state.index.eligible hash &&
              !descendsFrom state.index.tree link.hash hash))
      (hChain : after.chain = state.chain) :
      Tried env state link (.ok false) after

namespace LiveState

/- Whether a block on the tip connects is one step's work. -/
theorem connects_child
    (hPlan : Reliable env.plan)
    (hLive : LiveState env state)
    {link : Link}
    {block : Block}
    (hLink : link ∈ state.index.tree)
    (hParent : link.parent = some state.tip)
    (hBlock :
      state.db.records.blocks link.hash = some block) :
    Connects env state link.hash ↔
      ∃ done,
        Utxo.connectBlock env.crypto env.params block
            state.utxo =
          .ok done := by
  have hBranch := hLive.sound.branch_child hLink hParent
  have hReplay := hLive.sound.synced hPlan.calm
  rcases hLive.exists_tip with ⟨tip, hTip, -, hChain⟩
  rcases hLive.sound.ok.index.tree.exists_branch_eq_cons hTip with
    ⟨below, hCons⟩
  unfold Connects
  rw [hBranch]
  rw [hChain, hCons] at hReplay ⊢
  constructor
  · rintro ⟨coins, hCoins⟩
    rcases replay_cons.mp hCoins with
      ⟨before, found, result, hBefore, hFound, hConnect⟩
    rw [hReplay, Option.some_inj] at hBefore
    rw [hBlock, Option.some_inj] at hFound
    subst hBefore hFound
    exact ⟨_, hConnect⟩
  · rintro ⟨⟨result, coins⟩, hConnect⟩
    exact ⟨coins, replay_cons.mpr ⟨_, block, result, hReplay,
      hBlock, hConnect⟩⟩

theorem connectStep
    (hPlan : Reliable env.plan)
    (hLive : LiveState env state)
    {link : Link}
    {outcome : Except ActivationFailure Bool}
    (hLink : link ∈ state.index.tree)
    (hParent : link.parent = some state.tip)
    (hStored :
      (state.db.records.blocks link.hash).isSome = true)
    (hEligible : state.index.eligible link.hash = true)
    (hStep :
      ConnectStep env link.hash state outcome after) :
    Tried env state link outcome after := by
  have hCalm := hPlan.calm
  have hSound := hLive.sound
  rcases Option.isSome_iff_exists.mp hStored with
    ⟨block, hBlock⟩
  have hConnects := hLive.connects_child hPlan hLink hParent
    hBlock
  rcases List.mem_map.mp hLink with ⟨found, hEntry, rfl⟩
  have hFind := hSound.ok.index.find_of_mem hEntry
  cases hStep with
  | stopped hQuiet hBlocked =>
      exfalso
      cases hBlocked (Or.inl hCalm) with
      | unindexed hNone =>
          rw [hFind] at hNone
          cases hNone
      | elsewhere hFound hElse =>
          rw [hFind, Option.some_inj] at hFound
          subst hFound
          exact hElse hParent
      | bodyAbsent hNone =>
          rw [hBlock] at hNone
          cases hNone
  | suspended hCandidate hRefusal hSink hFaulted =>
      have hQuiet := hRefusal.frame.2.2
      rw [hQuiet.calm hCalm, hLive.fine] at hFaulted
      cases hFaulted
  | @refused entry tried index db after hCandidate hRefusal
      hFine hCommit =>
      have hTried : tried = block := by
        have hBody := hCandidate.body
        rw [hBlock, Option.some_inj] at hBody
        exact hBody.symm
      subst hTried
      rcases hRefusal.frame with ⟨hTree, hSame, hQuiet⟩
      rcases hCommit.frame with ⟨hIndex, hChain, -⟩
      have hOk := (hSound.ok.refusal hRefusal).index
      refine .ruledOut ?_ ?_ ?_ hChain
      · rw [hConnects]
        rintro ⟨done, hConnect⟩
        cases hRefusal with
        | body hQuiet hFails =>
            rw [(hSound.ok.ledger.bodies _ _ hBlock).2]
              at hFails
            cases hFails
        | coins hBefore hRun =>
            have hRight := (connectBlock_trusted hRun).2
              (Or.inl hCalm)
            rw [hBefore.records] at hRight
            rw [show state.coins.lookup
              state.db.records.coins = state.utxo from rfl,
              hConnect] at hRight
            cases hRight
      · rw [hIndex]
        exact (BlockIndex.recordFailure_tree hOk _).trans
          hTree
      · intro hash
        rw [hIndex]
        have hBefore : index.eligible found.hash = true := by
          rw [hSame]
          exact hEligible
        exact (BlockIndex.eligible_recordFailure hOk hBefore
          hash).trans (by rw [hSame, hTree])
  | @connected entry tried result before db undoDb coins
      stored written middle after hCandidate hBefore hRun
      hUndo hCommit hTip =>
      have hTried : tried = block := by
        have hBody := hCandidate.body
        rw [hBlock, Option.some_inj] at hBody
        exact hBody.symm
      subst hTried
      rcases connectBlock_trusted hRun with ⟨hQuiet, hRight⟩
      have hConnect := hRight (Or.inl hCalm)
      rw [hBefore.records] at hConnect
      rcases hTip.frame with ⟨hTipIndex, hTipChain, -⟩
      rcases hCommit.frame with ⟨hIndex, hChain, -⟩
      have hFine : middle.db.faulted = false := by
        rw [hCommit.faulted hPlan,
          (hUndo.of_reliable hPlan).2.1,
          (hBefore.trans hQuiet).calm hCalm, hLive.fine]
      rw [hTip.written hPlan hFine]
      refine .applied ?_ ?_ ?_
      · exact hConnects.mpr ⟨_, hConnect⟩
      · rw [hTipIndex, hIndex]
        exact (SameIndex.recordValidity _ _ _).trans
          (SameIndex.recordValidity _ _ _)
      · rw [hTipChain, hChain]

end LiveState

------------------------------------------------------------
-- Moving Along A Plan
------------------------------------------------------------

/- Every block between the tip and a common ancestor goes. -/
theorem disconnectAll_spec
    (hPlan : Reliable env.plan)
    (hLive : LiveState env state)
    {fork : Link}
    {links : List Link}
    (hFork : fork ∈ state.index.tree)
    (hChain :
      state.chain =
        links.map Link.hash ++
          branch state.index.tree fork.hash)
    (summary : ActivationSummary) :
    wpE (disconnectAll env links summary)
      (fun outcome after =>
        (∃ summary, outcome = .ok summary) ∧
          LiveState env after ∧
          after.index = state.index ∧
          after.db.records.blocks =
            state.db.records.blocks ∧
          after.chain = branch state.index.tree fork.hash)
      state := by
  induction links generalizing state summary with
  | nil =>
      exact ⟨⟨summary, rfl⟩, hLive, rfl, rfl, hChain⟩
  | cons link links ih =>
      have hTree := hLive.sound.ok.index.tree
      rcases hLive.exists_tip with ⟨tip, hTip, hHash, hBranch⟩
      rcases hTree.exists_branch_eq_cons hFork with
        ⟨below, hCons⟩
      have hHead : link.hash = state.tip := by
        rw [ChainState.tip, hChain]
        rfl
      unfold disconnectAll
      rw [wpE_get_bind, if_neg (not_not.mpr hHead), wpE_bind]
      -- Something is left below, so the tip has a parent.
      cases hParent : tip.parent with
      | none =>
          rw [hBranch, hTree.branch_root hTip hParent, hCons]
            at hChain
          simp at hChain
      | some parent =>
          refine wpE_mono (disconnectTip_spec
            hLive.sound.ok.ledger.filed summary) ?_
          intro outcome middle hStep
          rcases hLive.disconnectStep hPlan
            hTip hHash hParent hStep with
            ⟨hDone, hTail⟩
          rcases hStep.frame with ⟨hIndex, hBlocks, -⟩
          have hNext := (LiveState.kept hPlan).disconnect _ _ _
            hLive hStep
          rcases except_map_eq_ok.mp hDone with
            ⟨summary, rfl, -⟩
          rw [hChain] at hTail
          have hRest := ih hNext (by rw [hIndex]; exact hFork)
            (by rw [hIndex]; exact hTail) summary
          refine wpE_mono hRest ?_
          rintro outcome after ⟨hOk, hLive, hSame, hBodies,
            hEnd⟩
          rw [hIndex] at hSame hEnd
          rw [hBlocks] at hBodies
          exact ⟨hOk, hLive, hSame, hBodies, hEnd⟩

theorem Connects.congr
    (env : ChainEnv)
    (hBlocks :
      after.db.records.blocks = state.db.records.blocks)
    (hTree : after.index.tree = state.index.tree)
    (hash : Hash256) :
    Connects env after hash ↔ Connects env state hash := by
  unfold Connects
  rw [hBlocks, hTree]

/- The blocks went on up to the first that does not connect. -/
inductive Climbed
    (env : ChainEnv)
    (state : ChainState)
    (path : List Link)
    (top : Link) : ChainState → Prop
  | reached
      {after : ChainState}
      (hIndex : SameIndex state.index after.index)
      (hChain :
        after.chain = branch state.index.tree top.hash) :
      Climbed env state path top after
  | ruledOut
      {bad parent : Link}
      {after : ChainState}
      (hBad : bad ∈ path)
      (hAbove : bad.parent = some parent.hash)
      (hConnects : Connects env state parent.hash)
      (hFails : ¬Connects env state bad.hash)
      (hTree : after.index.tree = state.index.tree)
      (hEligible :
        ∀ hash,
          after.index.eligible hash =
            (state.index.eligible hash &&
              !descendsFrom state.index.tree bad.hash hash))
      (hChain :
        after.chain = branch state.index.tree parent.hash) :
      Climbed env state path top after

/- The first block of a path was applied before the rest. -/
theorem Climbed.cons
    {middle : ChainState}
    {link top : Link}
    {path : List Link}
    (hIndex : SameIndex state.index middle.index)
    (hBlocks :
      middle.db.records.blocks = state.db.records.blocks)
    (hClimbed : Climbed env middle path top after) :
    Climbed env state (link :: path) top after := by
  cases hClimbed with
  | reached hSame hChain =>
      rw [hIndex.tree] at hChain
      exact .reached (hIndex.trans hSame) hChain
  | ruledOut hBad hAbove hConnects hFails hTree hEligible
      hChain =>
      rw [Connects.congr env hBlocks hIndex.tree]
        at hConnects hFails
      rw [hIndex.tree] at hTree hChain
      refine .ruledOut (List.mem_cons_of_mem _ hBad) hAbove
        hConnects hFails hTree ?_ hChain
      intro hash
      rw [hEligible, hIndex.eligible, hIndex.tree]

theorem LiveState.chain_eq
    (hLive : LiveState env state)
    {link : Link}
    (hTip : link.hash = state.tip) :
    state.chain = branch state.index.tree link.hash := by
  rcases hLive.exists_tip with ⟨tip, -, hHash, hChain⟩
  rw [hChain, hHash, hTip]

theorem LiveState.connects_tip
    (hPlan : Reliable env.plan)
    (hLive : LiveState env state)
    {link : Link}
    (hTip : link.hash = state.tip) :
    Connects env state link.hash := by
  refine ⟨state.utxo, ?_⟩
  rw [← hLive.chain_eq hTip]
  exact hLive.sound.synced hPlan.calm

theorem connectAll_spec
    (hPlan : Reliable env.plan)
    (hLive : LiveState env state)
    {bottom top : Link}
    {path : List Link}
    (hBottom : bottom ∈ state.index.tree)
    (hTip : bottom.hash = state.tip)
    (hClimb : Climb state.index.tree bottom path top)
    (hStored :
      ∀ link ∈ path,
        (state.db.records.blocks link.hash).isSome = true)
    (hEligible :
      ∀ link ∈ path,
        state.index.eligible link.hash = true)
    (summary : ActivationSummary) :
    wpE (connectAll env path summary)
      (fun outcome after =>
        (∃ summary, outcome = .ok summary) ∧
          LiveState env after ∧
          after.db.records.blocks =
            state.db.records.blocks ∧
          Climbed env state path top after)
      state := by
  induction path generalizing state bottom summary with
  | nil =>
      cases hClimb
      unfold connectAll
      rw [wpE_pure]
      refine ⟨⟨summary, rfl⟩, hLive, rfl,
        .reached (.refl _) ?_⟩
      exact hLive.chain_eq hTip
  | cons link path ih =>
      cases hClimb with
      | up hLink hParent hRest =>
          have hFits : link.parent = some state.tip := by
            rw [hParent, hTip]
          unfold connectAll
          rw [wpE_bind]
          refine wpE_mono (connectTip_spec
            hLive.sound.ok.ledger.filed link.hash summary) ?_
          intro outcome middle hStep
          have hTried := hLive.connectStep hPlan hLink hFits
            (hStored link (List.mem_cons_self ..))
            (hEligible link (List.mem_cons_self ..)) hStep
          have hNext := (LiveState.kept hPlan).connect _ _ _ _
            hLive hStep
          have hBlocks := hStep.blocks
          cases outcome with
          | error failure => cases hTried
          | ok done =>
              rcases done with ⟨applied, summary⟩
              cases applied with
              | false =>
                  cases hTried with
                  | ruledOut hFails hTree hOut hChain =>
                      have hBelow := hLive.connects_tip hPlan
                        hTip
                      rw [hLive.chain_eq hTip] at hChain
                      exact ⟨⟨summary, rfl⟩, hNext, hBlocks,
                        .ruledOut (List.mem_cons_self ..)
                          hParent hBelow hFails hTree hOut
                          hChain⟩
              | true =>
                  cases hTried with
                  | applied hConnects hIndex hChain =>
                      have hTree := hIndex.tree
                      have hOn : link.hash = middle.tip := by
                        rw [ChainState.tip, hChain]
                        rfl
                      rw [← hTree] at hLink hRest
                      refine wpE_mono (ih hNext hLink hOn hRest
                        ?_ ?_ summary) ?_
                      · intro other hOther
                        rw [hBlocks]
                        exact hStored other
                          (List.mem_cons_of_mem _ hOther)
                      · intro other hOther
                        rw [hIndex.eligible]
                        exact hEligible other
                          (List.mem_cons_of_mem _ hOther)
                      · rintro outcome after ⟨hOk, hEnd, hBodies,
                          hClimbed⟩
                        rw [hBlocks] at hBodies
                        exact ⟨hOk, hEnd, hBodies,
                          hClimbed.cons hIndex hBlocks⟩

end Amarian
