import Amarian.Chain.Invariant
import Amarian.Chain.Progress

/-
  Applying a block for the second time.

  The coins at a block are a function of the path that leads
  to it, so a block that was applied once can be applied
  again whenever its parent is the tip, whatever happened in
  between.

  Key definitions include:
    * `Leads`
    * `Applied`
    * `Reconnects`

  Key theorems include:
    * `leads_runFrom`
    * `full_reconnects`
-/

------------------------------------------------------------
-- States On The Way
------------------------------------------------------------

namespace Amarian

/-
  The states that calls pass through: those between calls
  and those in the middle of an activation.
-/
inductive Leads
    (env : ChainEnv)
    (start : ChainState) : ChainState → Prop
  | start : Leads env start start
  | reset
      {state : ChainState}
      (hState : Leads env start state)
      (moments : List Moment) :
      Leads env start { state with moments }
  | read
      {state : ChainState}
      {db : ChainDb}
      (hState : Leads env start state)
      (hQuiet : DbQuiet env.plan state.db db) :
      Leads env start { state with db }
  | header
      {state after : ChainState}
      {header : BlockHeader}
      {now : Int64}
      (hState : Leads env start state)
      (hStep : HeaderStep env header now state after) :
      Leads env start after
  | block
      {state after : ChainState}
      {block : Block}
      {now : Int64}
      (hState : Leads env start state)
      (hStep : BlockStep env block now state after) :
      Leads env start after
  | disconnect
      {state after : ChainState}
      {outcome : Except ActivationFailure Unit}
      (hState : Leads env start state)
      (hStep : DisconnectStep env state outcome after) :
      Leads env start after
  | connect
      {state after : ChainState}
      {hash : Hash256}
      {outcome : Except ActivationFailure Bool}
      (hState : Leads env start state)
      (hStep : ConnectStep env hash state outcome after) :
      Leads env start after

section Steps

variable {env : ChainEnv}

/- A property that every kind of step keeps. -/
theorem Leads.keep
    {inv : ChainState → Prop}
    {start state : ChainState}
    (hReset :
      ∀ state moments, inv state →
        inv { state with moments })
    (hHeader :
      ∀ header now state after, inv state →
        HeaderStep env header now state after → inv after)
    (hBlock :
      ∀ block now state after, inv state →
        BlockStep env block now state after → inv after)
    (hKept : Kept env inv)
    (hLeads : Leads env start state)
    (hStart : inv start) :
    inv state := by
  induction hLeads with
  | start => exact hStart
  | reset hState moments ih => exact hReset _ moments ih
  | read hState hQuiet ih => exact hKept.quiet _ _ ih hQuiet
  | header hState hStep ih => exact hHeader _ _ _ _ ih hStep
  | block hState hStep ih => exact hBlock _ _ _ _ ih hStep
  | disconnect hState hStep ih =>
      exact hKept.disconnect _ _ _ ih hStep
  | connect hState hStep ih =>
      exact hKept.connect _ _ _ _ ih hStep

theorem Leads.sound
    (hCalm : Calm env.plan)
    {start state : ChainState}
    (hLeads : Leads env start state)
    (hSound : SoundState env start) :
    SoundState env state :=
  hLeads.keep
    (fun _ moments hSound => hSound.reset moments)
    (fun _ _ _ _ hSound hStep => hSound.headerStep hStep)
    (fun _ _ _ _ hSound hStep =>
      hSound.blockStep hCalm hStep)
    (SoundState.kept hCalm) hSound

/- Every call of a run is made of such steps. -/
theorem leads_runFrom
    (hCalm : Calm env.plan)
    {start : ChainState}
    (hSound : SoundState env start)
    (calls : List Call) :
    Leads env start (runFrom env start calls) := by
  have hKept :
      Kept env
        fun state =>
          SoundState env state ∧ Leads env start state :=
    { filed := fun state hState =>
        (SoundState.kept hCalm).filed state hState.1
      quiet := fun state db hState hQuiet =>
        ⟨(SoundState.kept hCalm).quiet state db hState.1
          hQuiet, hState.2.read hQuiet⟩
      disconnect := fun state outcome after hState hStep =>
        ⟨hState.1.disconnectStep hStep,
          hState.2.disconnect hStep⟩
      connect := fun hash state outcome after hState hStep =>
        ⟨hState.1.connectStep hCalm hStep,
          hState.2.connect hStep⟩ }
  have hRun :
      ∀ state,
        SoundState env state ∧ Leads env start state →
          Leads env start (runFrom env state calls) := by
    induction calls with
    | nil => exact fun _ hState => hState.2
    | cons call calls ih =>
        intro state hState
        refine ih _ (hKept.step call ?_ ?_ ?_ hState)
        · exact fun _ moments hState =>
            ⟨hState.1.reset moments, hState.2.reset moments⟩
        · exact fun _ _ _ _ _ hState hStep =>
            ⟨hState.1.headerStep hStep,
              hState.2.header hStep⟩
        · exact fun _ _ _ _ _ hState hStep =>
            ⟨hState.1.blockStep hCalm hStep,
              hState.2.block hStep⟩
  exact hRun start ⟨hSound, .start⟩

------------------------------------------------------------
-- What Later States Keep
------------------------------------------------------------

/- Branches and bodies stay what they are. -/
structure Extends
    (before after : ChainState) : Prop where
  branches :
    ∀ hash,
      (∃ link ∈ before.index.tree, link.hash = hash) →
        (∃ link ∈ after.index.tree, link.hash = hash) ∧
          branch after.index.tree hash =
            branch before.index.tree hash
  bodies :
    ∀ hash block,
      before.db.records.blocks hash = some block →
        after.db.records.blocks hash = some block

namespace Extends

variable {before middle after : ChainState}

theorem same
    (hTree : after.index.tree = before.index.tree)
    (hBlocks :
      after.db.records.blocks =
        before.db.records.blocks) :
    Extends before after where
  branches := by
    intro hash hFound
    rw [hTree]
    exact ⟨hFound, rfl⟩
  bodies := by
    rw [hBlocks]
    exact fun _ _ hBlock => hBlock

theorem trans
    (hFirst : Extends before middle)
    (hSecond : Extends middle after) :
    Extends before after where
  branches := by
    intro hash hFound
    rcases hFirst.branches hash hFound with
      ⟨hMiddle, hSame⟩
    rcases hSecond.branches hash hMiddle with
      ⟨hAfter, hToo⟩
    exact ⟨hAfter, hToo.trans hSame⟩
  bodies := fun hash block hBlock =>
    hSecond.bodies hash block
      (hFirst.bodies hash block hBlock)

theorem addHeader
    {header : BlockHeader}
    {now : Int64}
    {index : BlockIndex}
    (hAdded :
      before.index.addHeader env.crypto env.params header
        now = .ok index) :
    Extends before { before with index } where
  branches := by
    intro hash hFound
    rcases BlockIndex.addHeader_eq_ok.mp hAdded with
      ⟨rfl, -⟩ | ⟨hFresh, parent, -, -, -, -, rfl⟩
    · exact ⟨hFound, rfl⟩
    · refine ⟨?_, TreeOk.branch_cons
        (IndexOk.hash_ne_of_find_none hFresh) hFound⟩
      rcases hFound with ⟨link, hLink, hHash⟩
      exact ⟨link, List.mem_cons_of_mem _ hLink, hHash⟩
  bodies := fun _ _ hBlock => hBlock

theorem headerStep
    {header : BlockHeader}
    {now : Int64}
    (hStep : HeaderStep env header now before after) :
    Extends before after := by
  cases hStep with
  | unchanged => exact .same rfl rfl
  | indexed hIndexed hEntry =>
      rcases hEntry.frame with ⟨hIndex, -, -, -, hBlocks, -⟩
      exact (addHeader hIndexed.added).trans
        (.same (by rw [hIndex]) hBlocks)

theorem blockStep
    (hCalm : Calm env.plan)
    (hSound : SoundState env before)
    {block : Block}
    {now : Int64}
    (hStep : BlockStep env block now before after) :
    Extends before after := by
  cases hStep with
  | unchanged => exact .same rfl rfl
  | known hIndexed hQuiet =>
      exact (addHeader hIndexed.added).trans
        (.same rfl (by simp only [hQuiet.records]))
  | refused hIndexed hQuiet hAbsent hFails hEntry =>
      rcases hEntry.frame with ⟨hIndex, -, -, -, hBlocks, -⟩
      have hAdded := hSound.ok.addHeader hIndexed.added
      refine (addHeader hIndexed.added).trans (.same ?_ ?_)
      · rw [hIndex]
        exact BlockIndex.recordFailure_tree hAdded.index _
      · rw [hBlocks]
        simp only [hQuiet.records]
  | @stored index db bodyDb written after hIndexed hQuiet
      hAbsent hPasses hBody hEntry =>
      rcases hEntry.frame with ⟨hIndex, -, -, -, hBlocks, -⟩
      have hHeld := hBody.records_of_trusted
        (Or.inl hCalm) (by simp)
      refine (addHeader hIndexed.added).trans ⟨?_, ?_⟩
      · intro hash hFound
        rw [hIndex]
        simp only [BlockIndex.recordValidity_tree, and_true]
        exact hFound
      · intro hash old hOld
        rw [hBlocks]
        simp only [hHeld.2, hQuiet.records, recordBlock]
        by_cases hHash : hash = block.hash env.crypto
        · rw [hHash, hAbsent (Or.inl hCalm)] at hOld
          cases hOld
        · rw [Function.update_of_ne hHash]
          exact hOld

theorem connectStep
    (hSound : SoundState env before)
    {hash : Hash256}
    {outcome : Except ActivationFailure Bool}
    (hStep : ConnectStep env hash before outcome after) :
    Extends before after := by
  have hBlocks := hStep.blocks
  refine .same ?_ hBlocks
  cases hStep with
  | stopped => rfl
  | suspended hCandidate hRefusal => exact hRefusal.frame.1
  | refused hCandidate hRefusal hFine hEntry =>
      rw [hEntry.frame.1]
      simp only [BlockIndex.recordFailure_tree
        (hSound.ok.refusal hRefusal).index,
        hRefusal.frame.1]
  | connected hCandidate hBefore hRun hUndo hEntry hTip =>
      rw [hTip.frame.1, hEntry.frame.1]
      simp only [BlockIndex.recordValidity_tree]

end Extends

------------------------------------------------------------
-- Blocks That Were Applied
------------------------------------------------------------

/- The block has been applied at some time. -/
def BlockIndex.fullyValid
    (index : BlockIndex)
    (hash : Hash256) : Bool :=
  (index.find hash).any fun entry =>
    entry.validity == .full

namespace BlockIndex

variable {index : BlockIndex} {hash wanted : Hash256}

theorem mem_of_fullyValid
    (hFull : index.fullyValid hash = true) :
    ∃ link ∈ index.tree, link.hash = hash := by
  rcases (Option.any_eq_true _ _).mp hFull with
    ⟨entry, hFound, -⟩
  rcases IndexOk.mem_of_find hFound with ⟨hMember, hHash⟩
  exact ⟨entry.toLink, IndexOk.link_mem hMember, hHash⟩

/- Only the level itself makes a block fully valid. -/
theorem fullyValid_recordValidity
    {reached : BlockValidity}
    (hFull :
      (index.recordValidity hash reached).fullyValid
        wanted = true) :
    index.fullyValid wanted = true ∨
      wanted = hash ∧ reached = .full := by
  rw [fullyValid, find_recordValidity, Option.any_map,
    Option.any_eq_true] at hFull
  rcases hFull with ⟨entry, hFound, hRaised⟩
  simp only [beq_iff_eq, raiseValidity] at hRaised
  split at hRaised
  · rename_i hHere
    right
    refine ⟨?_, hRaised⟩
    rw [← hHere.1]
    exact (IndexOk.mem_of_find hFound).2.symm
  · left
    rw [fullyValid, hFound]
    simpa using hRaised

theorem fullyValid_recordFailure
    {c : Crypto}
    {params : ChainParams}
    (hIndex : IndexOk c params index) :
    (index.recordFailure hash).fullyValid wanted =
      index.fullyValid wanted := by
  cases hEligible : index.eligible hash with
  | false =>
      rw [recordFailure_of_not_eligible hEligible]
  | true =>
      rw [fullyValid, fullyValid,
        find_recordFailure hIndex hEligible, Option.any_map]
      congr 1
      funext entry
      rw [ruleOut_validity]

theorem fullyValid_addHeader
    {c : Crypto}
    {params : ChainParams}
    {header : BlockHeader}
    {now : Int64}
    {after : BlockIndex}
    (hAdded :
      index.addHeader c params header now = .ok after)
    (hFull : after.fullyValid wanted = true) :
    index.fullyValid wanted = true := by
  rcases BlockIndex.addHeader_eq_ok.mp hAdded with
    ⟨rfl, -⟩ | ⟨hFresh, parent, -, -, -, -, rfl⟩
  · exact hFull
  · rw [fullyValid, find_insertEntry] at hFull
    split at hFull
    · simp [newEntry] at hFull
    · exact hFull

end BlockIndex

theorem Refusal.fullyValid
    {state : ChainState}
    {entry : BlockIndexEntry}
    {block : Block}
    {index : BlockIndex}
    {db : ChainDb}
    {wanted : Hash256}
    (hRefusal : Refusal env state entry block index db)
    (hFull : index.fullyValid wanted = true) :
    state.index.fullyValid wanted = true := by
  cases hRefusal with
  | body => exact hFull
  | coins =>
      rcases BlockIndex.fullyValid_recordValidity hFull with
        hOld | ⟨-, hReached⟩
      · exact hOld
      · cases hReached

/- The coins at the tip are those of the tip's branch. -/
theorem SoundState.replay_tip
    {state : ChainState}
    {hash : Hash256}
    (hSound : SoundState env state)
    (hCalm : Calm env.plan)
    (hTip : state.tip = hash) :
    replay env.crypto env.params state.db.records.blocks
        (branch state.index.tree hash) =
      some state.utxo := by
  rcases hSound.ok.ledger.tip_branch hSound.ok.index.tree
    state.index.genesis with
    ⟨link, -, hHash, hChain⟩
  rw [← hTip, show state.tip = link.hash from hHash.symm,
    ← hChain]
  exact hSound.synced hCalm

/- What was applied can be replayed from genesis on. -/
def Applied
    (env : ChainEnv)
    (state : ChainState) : Prop :=
  ∀ hash,
    state.index.fullyValid hash = true →
      ∃ coins,
        replay env.crypto env.params
            state.db.records.blocks
            (branch state.index.tree hash) =
          some coins

namespace Applied

variable {state after : ChainState}

theorem fresh
    (env : ChainEnv) :
    Applied env (.fresh env.crypto env.params) := by
  intro hash hFull
  rcases BlockIndex.mem_of_fullyValid hFull with
    ⟨link, hLink, rfl⟩
  rcases List.mem_singleton.mp hLink with rfl
  have hTree := (SoundState.fresh env).ok.index.tree
  refine ⟨Utxo.empty, ?_⟩
  rw [hTree.branch_root hLink rfl]
  rfl

/- Nothing new was applied. -/
theorem of_extends
    (hApplied : Applied env state)
    (hExtends : Extends state after)
    (hFull :
      ∀ hash, after.index.fullyValid hash = true →
        state.index.fullyValid hash = true) :
    Applied env after := by
  intro hash hAfter
  have hBefore := hFull hash hAfter
  rcases hApplied hash hBefore with ⟨coins, hReplay⟩
  rw [(hExtends.branches hash
    (BlockIndex.mem_of_fullyValid hBefore)).2]
  exact ⟨coins, replay_mono hExtends.bodies hReplay⟩

theorem headerStep
    (hApplied : Applied env state)
    {header : BlockHeader}
    {now : Int64}
    (hStep : HeaderStep env header now state after) :
    Applied env after := by
  refine hApplied.of_extends (.headerStep hStep) ?_
  cases hStep with
  | unchanged => exact fun _ hFull => hFull
  | indexed hIndexed hEntry =>
      intro hash hFull
      rw [hEntry.frame.1] at hFull
      exact BlockIndex.fullyValid_addHeader hIndexed.added
        hFull

theorem blockStep
    (hCalm : Calm env.plan)
    (hSound : SoundState env state)
    (hApplied : Applied env state)
    {block : Block}
    {now : Int64}
    (hStep : BlockStep env block now state after) :
    Applied env after := by
  refine hApplied.of_extends
    (.blockStep hCalm hSound hStep) ?_
  intro hash hFull
  cases hStep with
  | unchanged => exact hFull
  | known hIndexed hQuiet =>
      exact BlockIndex.fullyValid_addHeader hIndexed.added
        hFull
  | refused hIndexed hQuiet hAbsent hFails hEntry =>
      have hAdded := hSound.ok.addHeader hIndexed.added
      rw [hEntry.frame.1] at hFull
      simp only [BlockIndex.fullyValid_recordFailure
        hAdded.index] at hFull
      exact BlockIndex.fullyValid_addHeader hIndexed.added
        hFull
  | stored hIndexed hQuiet hAbsent hPasses hBody hEntry =>
      rw [hEntry.frame.1] at hFull
      rcases BlockIndex.fullyValid_recordValidity hFull with
        hOld | ⟨-, hReached⟩
      · exact BlockIndex.fullyValid_addHeader hIndexed.added
          hOld
      · cases hReached

theorem connectStep
    (hCalm : Calm env.plan)
    (hSound : SoundState env state)
    (hApplied : Applied env state)
    {hash : Hash256}
    {outcome : Except ActivationFailure Bool}
    (hStep : ConnectStep env hash state outcome after) :
    Applied env after := by
  have hExtends := Extends.connectStep hSound hStep
  have hAfter := hSound.connectStep hCalm hStep
  cases hStep with
  | stopped => exact hApplied.of_extends hExtends fun _ => id
  | suspended hCandidate hRefusal =>
      refine hApplied.of_extends hExtends ?_
      exact fun wanted hFull => hRefusal.fullyValid hFull
  | refused hCandidate hRefusal hFine hEntry =>
      refine hApplied.of_extends hExtends ?_
      intro wanted hFull
      rw [hEntry.frame.1] at hFull
      simp only [BlockIndex.fullyValid_recordFailure
        (hSound.ok.refusal hRefusal).index] at hFull
      exact hRefusal.fullyValid hFull
  | connected hCandidate hBefore hRun hUndo hEntry hTip =>
      intro wanted hFull
      by_cases hHere : wanted = hash
      · rw [hHere]
        exact ⟨_, hAfter.replay_tip hCalm
          (by rw [ChainState.tip, hTip.frame.2.1,
            hEntry.frame.2.1, List.headD_cons])⟩
      · rw [hTip.frame.1, hEntry.frame.1] at hFull
        rcases BlockIndex.fullyValid_recordValidity hFull
          with hBody | ⟨hSame, -⟩
        case inr => exact absurd hSame hHere
        rcases BlockIndex.fullyValid_recordValidity hBody
          with hOld | ⟨hSame, -⟩
        case inr => exact absurd hSame hHere
        rcases hApplied wanted hOld with ⟨coins, hReplay⟩
        rw [(hExtends.branches wanted
          (BlockIndex.mem_of_fullyValid hOld)).2]
        exact ⟨coins, replay_mono hExtends.bodies hReplay⟩

/- Every state that the calls of a run pass through. -/
theorem leads
    (hCalm : Calm env.plan)
    (hLeads : Leads env (.fresh env.crypto env.params) state) :
    SoundState env state ∧ Applied env state := by
  have hKept :
      Kept env
        fun state => SoundState env state ∧ Applied env state :=
    { filed := fun state hState =>
        (SoundState.kept hCalm).filed state hState.1
      quiet := fun state db hState hQuiet =>
        ⟨(SoundState.kept hCalm).quiet state db hState.1
          hQuiet,
          hState.2.of_extends
            (.same rfl (congrArg Records.blocks
              hQuiet.records)) fun _ => id⟩
      disconnect := fun state outcome after hState hStep => by
        rcases hStep.frame with ⟨hIndex, hBlocks, -⟩
        refine ⟨hState.1.disconnectStep hStep,
          hState.2.of_extends
            (.same (by rw [hIndex]) hBlocks) ?_⟩
        rw [hIndex]
        exact fun _ => id
      connect := fun hash state outcome after hState hStep =>
        ⟨hState.1.connectStep hCalm hStep,
          hState.2.connectStep hCalm hState.1 hStep⟩ }
  refine hLeads.keep ?_ ?_ ?_ hKept ⟨.fresh env, .fresh env⟩
  · exact fun _ moments hState =>
      ⟨hState.1.reset moments, hState.2⟩
  · exact fun _ _ _ _ hState hStep =>
      ⟨hState.1.headerStep hStep, hState.2.headerStep hStep⟩
  · exact fun _ _ _ _ hState hStep =>
      ⟨hState.1.blockStep hCalm hStep,
        hState.2.blockStep hCalm hState.1 hStep⟩

end Applied

theorem Extends.leads
    (hCalm : Calm env.plan)
    {start state : ChainState}
    (hSound : SoundState env start)
    (hLeads : Leads env start state) :
    Extends start state := by
  induction hLeads with
  | start => exact .same rfl rfl
  | reset hState moments ih => exact ih.trans (.same rfl rfl)
  | read hState hQuiet ih =>
      exact ih.trans
        (.same rfl (congrArg Records.blocks hQuiet.records))
  | header hState hStep ih =>
      exact ih.trans (.headerStep hStep)
  | block hState hStep ih =>
      exact ih.trans
        (.blockStep hCalm (hState.sound hCalm hSound) hStep)
  | disconnect hState hStep ih =>
      rcases hStep.frame with ⟨hIndex, hBlocks, -⟩
      exact ih.trans (.same (by rw [hIndex]) hBlocks)
  | connect hState hStep ih =>
      exact ih.trans
        (.connectStep (hState.sound hCalm hSound) hStep)

------------------------------------------------------------
-- Applying A Block Again
------------------------------------------------------------

/-
  What the line of a block leads to: the coins below it, the
  undo record of the block and the coins with it.
-/
def LeadsTo
    (env : ChainEnv)
    (blocks : Hash256 → Option Block)
    (line : List Hash256)
    (coins : Utxo)
    (undo : BlockUndo)
    (result : Utxo) : Prop :=
  replay env.crypto env.params blocks line = some result ∧
    (line.tail ≠ [] →
      replay env.crypto env.params blocks line.tail =
          some coins ∧
        replayTop env.crypto env.params blocks line =
          some undo)

theorem exists_leadsTo
    {blocks : Hash256 → Option Block}
    {line : List Hash256}
    {result : Utxo}
    (hReplay :
      replay env.crypto env.params blocks line =
        some result) :
    ∃ coins undo,
      LeadsTo env blocks line coins undo result := by
  cases line with
  | nil => cases hReplay
  | cons hash below =>
      cases below with
      | nil =>
          exact ⟨Utxo.empty, ⟨[]⟩, hReplay,
            fun hNot => absurd rfl hNot⟩
      | cons parent below =>
          rcases replay_cons.mp hReplay with
            ⟨coins, block, done, hCoins, hBlock, hConnect⟩
          exact ⟨coins, done.undo, hReplay,
            fun _ => ⟨hCoins, replayTop_cons.mpr
              ⟨coins, block, done, result, hCoins, hBlock,
                hConnect, rfl⟩⟩⟩

theorem LeadsTo.mono
    {blocks more : Hash256 → Option Block}
    {line : List Hash256}
    {coins result : Utxo}
    {undo : BlockUndo}
    (hLeads : LeadsTo env blocks line coins undo result)
    (hMore :
      ∀ hash block,
        blocks hash = some block →
          more hash = some block) :
    LeadsTo env more line coins undo result :=
  ⟨replay_mono hMore hLeads.1, fun hTail =>
    ⟨replay_mono hMore (hLeads.2 hTail).1,
      replayTop_mono hMore (hLeads.2 hTail).2⟩⟩

/-
  Connecting the block does not rule anything out, and when
  it is applied it is over these coins, with this undo record
  and with this result.  It is applied if its parent is the
  tip and the store refuses nothing and has refused nothing.
-/
structure Reconnects
    (env : ChainEnv)
    (hash : Hash256)
    (coins : Utxo)
    (undo : BlockUndo)
    (result : Utxo)
    (state : ChainState) : Prop where
  atTip : state.tip = hash → state.utxo = result
  connect :
    ∀ summary,
      wpE (connectTip env hash summary)
        (fun outcome after =>
          (∀ later, outcome ≠ .ok (false, later)) ∧
            (∀ wanted,
              after.index.eligible wanted =
                state.index.eligible wanted) ∧
            ∀ later,
              outcome = .ok (true, later) →
                state.utxo = coins ∧
                  after.db.records.undo hash =
                    some undo ∧
                  after.utxo = result)
        state
  succeeds :
    Reliable env.plan → state.db.faulted = false →
      (state.index.find hash).bind (fun entry => entry.parent) =
          some state.tip →
        ∀ summary,
          wpE (connectTip env hash summary)
            (fun outcome _ =>
              ∃ later, outcome = .ok (true, later))
            state

section Again

variable {state after : ChainState} {hash : Hash256}
variable {coins result : Utxo} {undo : BlockUndo}

/- A line that was replayed is not refused. -/
theorem not_refused_of_replay
    (hCalm : Calm env.plan)
    (hSound : SoundState env state)
    {entry : BlockIndexEntry}
    {block : Block}
    {index : BlockIndex}
    {db : ChainDb}
    (hReplay :
      replay env.crypto env.params
          state.db.records.blocks
          (branch state.index.tree hash) =
        some result)
    (hCandidate : Candidate hash state entry block)
    (hRefusal : Refusal env state entry block index db) :
    False := by
  rcases IndexOk.mem_of_find hCandidate.found with
    ⟨hMember, rfl⟩
  have hBranch := hSound.branch_child
    (IndexOk.link_mem hMember) hCandidate.parent
  cases hRefusal with
  | body hQuiet hFails =>
      rw [(hSound.ok.ledger.bodies _ _
        hCandidate.body).2] at hFails
      cases hFails
  | coins hBefore hRun =>
      have hRight := (connectBlock_trusted hRun).2
        (Or.inl hCalm)
      have hUtxo := hSound.synced hCalm
      rw [hBefore.records] at hRight
      rw [hBranch] at hReplay
      cases hChain : state.chain with
      | nil =>
          rw [hChain] at hUtxo
          cases hUtxo
      | cons parent below =>
          rw [hChain] at hReplay hUtxo
          rcases replay_cons.mp hReplay with
            ⟨before, found, done, hBefore, hFound, hConnect⟩
          rw [hUtxo, Option.some_inj] at hBefore
          rw [hCandidate.body, Option.some_inj] at hFound
          subst hBefore hFound
          rw [show Utxo.connectBlock env.crypto env.params
            block state.utxo = _ from hRight] at hConnect
          cases hConnect

/- And applying it leads where its line leads. -/
theorem connected_leadsTo
    (hCalm : Calm env.plan)
    (hSound : SoundState env state)
    (hLeads :
      LeadsTo env state.db.records.blocks
        (branch state.index.tree hash) coins undo result)
    (hStep : ConnectStep env hash state (.ok true) after) :
    state.utxo = coins ∧
      after.db.records.undo hash = some undo ∧
      after.utxo = result := by
  have hAfter := hSound.connectStep hCalm hStep
  have hExtends := Extends.connectStep hSound hStep
  generalize hDone : (Except.ok true :
    Except ActivationFailure Bool) = outcome at hStep
  cases hStep with
  | stopped => cases hDone
  | suspended => cases hDone
  | refused => cases hDone
  | @connected entry block done before db undoDb cache
      stored written middle after hCandidate hBefore hRun
      hUndo hEntry hTip =>
      rcases IndexOk.mem_of_find hCandidate.found with
        ⟨hMember, rfl⟩
      have hIndexed := IndexOk.link_mem hMember
      have hBranch := hSound.branch_child hIndexed
        hCandidate.parent
      have hSame := hExtends.branches _ ⟨_, hIndexed, rfl⟩
      have hUtxo := hSound.synced hCalm
      have hLater := hLeads.mono hExtends.bodies
      have hTail :
          (branch state.index.tree entry.hash).tail ≠ [] := by
        rw [hBranch, List.tail_cons]
        intro hNil
        rw [hNil] at hUtxo
        cases hUtxo
      refine ⟨?_, ?_, ?_⟩
      · have hCoins := (hLeads.2 hTail).1
        rw [hBranch, List.tail_cons, hUtxo,
          Option.some_inj] at hCoins
        exact hCoins
      · have hHeld := (hUndo.records_of_trusted
          (Or.inl hCalm) (by simp)).2
        rcases hTip.frame with ⟨-, -, -, hTipUndo, -⟩
        rcases hEntry.frame with ⟨-, -, -, -, -, hUndos, -⟩
        have hWritten := congrFun
          (hTipUndo.trans hUndos) entry.hash
        simp only [hHeld, recordUndo, Function.update_self]
          at hWritten
        have hRight := (hAfter.undos _ _ hWritten).2
        rw [hSame.2, (hLater.2 hTail).2] at hRight
        rw [hWritten, hRight]
      · have hReplay := hAfter.replay_tip hCalm
          (by rw [ChainState.tip, hTip.frame.2.1,
            hEntry.frame.2.1, List.headD_cons])
        rw [hSame.2, hLater.1, Option.some_inj] at hReplay
        exact hReplay.symm

/- The body of what leads somewhere is stored. -/
theorem LeadsTo.stored
    {blocks : Hash256 → Option Block}
    {below : List Hash256}
    (hLeads :
      LeadsTo env blocks (hash :: below) coins undo result)
    (hBelow : below ≠ []) :
    ∃ block, blocks hash = some block := by
  cases below with
  | nil => exact absurd rfl hBelow
  | cons parent below =>
      rcases replay_cons.mp hLeads.1 with
        ⟨-, block, -, -, hBlock, -⟩
      exact ⟨block, hBlock⟩

/- Over a store without faults the block goes on. -/
theorem LeadsTo.connects
    (hPlan : Reliable env.plan)
    (hFine : state.db.faulted = false)
    (hSound : SoundState env state)
    (hLeads :
      LeadsTo env state.db.records.blocks
        (branch state.index.tree hash) coins undo result)
    (hParent :
      (state.index.find hash).bind
          (fun entry => entry.parent) =
        some state.tip)
    {outcome : Except ActivationFailure Bool}
    (hStep : ConnectStep env hash state outcome after) :
    outcome = .ok true := by
  have hCalm := hPlan.calm
  rcases Option.bind_eq_some_iff.mp hParent with
    ⟨entry, hFound, hTip⟩
  rcases IndexOk.mem_of_find hFound with ⟨hMember, rfl⟩
  cases hStep with
  | stopped hQuiet hBlocked =>
      exfalso
      cases hBlocked (Or.inl hCalm) with
      | unindexed hNone =>
          rw [hFound] at hNone
          cases hNone
      | elsewhere hOther hElse =>
          rw [hFound, Option.some_inj] at hOther
          subst hOther
          exact hElse hTip
      | bodyAbsent hNone =>
          have hBranch := hSound.branch_child
            (IndexOk.link_mem hMember) hTip
          rw [hBranch] at hLeads
          rcases hLeads.stored (by
            intro hNil
            have hUtxo := hSound.synced hCalm
            rw [hNil] at hUtxo
            cases hUtxo) with
            ⟨block, hBlock⟩
          rw [hBlock] at hNone
          cases hNone
  | suspended hCandidate hRefusal =>
      exact absurd hRefusal (not_refused_of_replay hCalm
        hSound hLeads.1 hCandidate)
  | refused hCandidate hRefusal =>
      exact absurd hRefusal (not_refused_of_replay hCalm
        hSound hLeads.1 hCandidate)
  | connected hCandidate hBefore hRun hUndo hEntry hCommit =>
      have hQuiet :=
        hBefore.trans (connectBlock_trusted hRun).1
      have hStill := hEntry.faulted hPlan
      dsimp only at hStill
      rw [(hUndo.of_reliable hPlan).2.1, hQuiet.calm hCalm,
        hFine] at hStill
      rw [hCommit.written hPlan hStill, if_pos rfl]

theorem LeadsTo.reconnects
    (hCalm : Calm env.plan)
    (hSound : SoundState env state)
    (hLeads :
      LeadsTo env state.db.records.blocks
        (branch state.index.tree hash) coins undo result) :
    Reconnects env hash coins undo result state where
  atTip := by
    intro hTip
    have hReplay := hSound.replay_tip hCalm hTip
    rw [hLeads.1, Option.some_inj] at hReplay
    exact hReplay.symm
  connect := by
    intro summary
    refine wpE_mono
      (connectTip_spec hSound.ok.ledger.filed hash summary)
      ?_
    intro outcome after hStep
    refine ⟨?_, ?_, ?_⟩
    · rintro later rfl
      generalize hDone : Except.map Prod.fst _ = answer
        at hStep
      cases hStep with
      | stopped => cases hDone
      | suspended => cases hDone
      | refused hCandidate hRefusal =>
          exact not_refused_of_replay hCalm hSound hLeads.1
            hCandidate hRefusal
      | @connected _ _ _ _ _ _ _ _ written =>
          cases written <;> cases hDone
    · intro wanted
      generalize Except.map Prod.fst outcome = answer
        at hStep
      cases hStep with
      | stopped => rfl
      | suspended hCandidate hRefusal =>
          exact hRefusal.frame.2.1 wanted
      | refused hCandidate hRefusal =>
          exact absurd hRefusal (not_refused_of_replay hCalm
            hSound hLeads.1 hCandidate)
      | connected hCandidate hBefore hRun hUndo hEntry hTip =>
          rw [hTip.frame.1, hEntry.frame.1]
          simp only [BlockIndex.eligible_recordValidity]
    · rintro later rfl
      exact connected_leadsTo hCalm hSound hLeads hStep
  succeeds := by
    intro hPlan hFine hParent summary
    refine wpE_mono
      (connectTip_spec hSound.ok.ledger.filed hash summary)
      ?_
    intro outcome after hStep
    have hDone := hLeads.connects hPlan hFine hSound hParent
      hStep
    cases outcome with
    | error failure => cases hDone
    | ok returned =>
        rcases returned with ⟨done, later⟩
        cases hDone
        exact ⟨later, rfl⟩

end Again

/-
  Once a block was applied, connecting it never rules
  anything out again, and it always gives the same.
-/
theorem full_reconnects
    (hCalm : Calm env.plan)
    {middle : ChainState}
    (hReached :
      Leads env (.fresh env.crypto env.params) middle)
    {hash : Hash256}
    {entry : BlockIndexEntry}
    (hFound : middle.index.find hash = some entry)
    (hFull : entry.validity = .full) :
    ∃ coins undo result,
      ∀ later, Leads env middle later →
        Reconnects env hash coins undo result later := by
  rcases Applied.leads hCalm hReached with
    ⟨hSound, hApplied⟩
  have hValid : middle.index.fullyValid hash = true := by
    rw [BlockIndex.fullyValid, hFound]
    simp [hFull]
  rcases hApplied hash hValid with ⟨result, hReplay⟩
  rcases exists_leadsTo hReplay with ⟨coins, undo, hLeads⟩
  refine ⟨coins, undo, result, ?_⟩
  intro later hLater
  have hExtends := Extends.leads hCalm hSound hLater
  refine LeadsTo.reconnects hCalm
    (hLater.sound hCalm hSound) ?_
  rw [(hExtends.branches hash
    (BlockIndex.mem_of_fullyValid hValid)).2]
  exact hLeads.mono hExtends.bodies

end Steps

namespace Sample

/- The first block was applied and then reverted. -/
theorem full_reconnects_reverted :
    (run env (reorganisation.take 2)).tip = a1Hash ∧
      (run env reorganisation).tip = c2Hash ∧
      ∃ coins undo result,
        (run env (reorganisation.take 2)).utxo = result ∧
          Reconnects env a1Hash coins undo result
            (run env reorganisation) := by
  have hCalm : Calm env.plan := fun _ _ _ => rfl
  have hFirst :
      (run env (reorganisation.take 2)).tip = a1Hash ∧
        (run env (reorganisation.take 2)).index.fullyValid
          a1Hash = true := by
    rw [env_eq]
    decide +kernel
  rcases hFirst with ⟨hTip, hFull⟩
  rcases (Option.any_eq_true _ _).mp hFull with
    ⟨entry, hFound, hLevel⟩
  have hLater :
      Leads env (run env (reorganisation.take 2))
        (run env reorganisation) := by
    have hAll := leads_runFrom hCalm
      (SoundState.run hCalm (reorganisation.take 2))
      (reorganisation.drop 2)
    rw [run, runFrom, runFrom, ← List.foldl_append,
      List.take_append_drop] at hAll
    exact hAll
  rcases full_reconnects hCalm
    (leads_runFrom hCalm (.fresh env) (reorganisation.take 2))
    hFound (by simpa using hLevel) with
    ⟨coins, undo, result, hAlways⟩
  exact ⟨hTip, by rw [env_eq]; decide +kernel, coins, undo,
    result, (hAlways _ .start).atTip hTip, hAlways _ hLater⟩

end Sample

end Amarian
