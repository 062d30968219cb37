import Amarian.Chain.Passes
import Amarian.Storage.CommittedTip

/-
  Runs that are cut short and started anew, many times.

  A run may stop after any of its writes.  What is loaded
  then is a state that a run can go on from, with the
  entries in the order they had, unless a header went on
  record whose parent, number or verdict had been lost.

  Key definitions include:
    * `Lived`
    * `Recoverable`
    * `SameOrder`

  Key theorems include:
    * `Moored.activateBestChain`
    * `Moored.restart`
    * `recovers_when_recoverable`
-/

namespace Amarian

variable {c : Crypto} {params : ChainParams}

------------------------------------------------------------
-- Activation
------------------------------------------------------------

namespace Moored

variable {env : ChainEnv} {state : ChainState}

theorem filed
    (hState : Moored env state) :
    ChainDb.Filed env.crypto state.db.records :=
  Rooted.kept.filed _ hState.onShelf.rooted

theorem reachable
    (links : List Link)
    (hState : Moored env state) :
    wp (Amarian.reachable env links)
      (fun path after =>
        (∀ link ∈ path, link ∈ links) ∧
          after.index = state.index ∧ Moored env after)
      state := by
  induction links generalizing state with
  | nil => exact ⟨fun _ => id, rfl, hState⟩
  | cons link links ih =>
      unfold Amarian.reachable
      rw [wp_bind, wp_onDb]
      have hQuiet := (ChainDb.haveBlock_cases env.plan
        link.hash state.db).1
      have hRead := hState.quiet hQuiet
      split
      · rw [wp_bind]
        refine wp_mono (ih hRead) ?_
        intro path after hAfter
        rcases hAfter with ⟨hPath, hIndex, hMoored⟩
        refine ⟨?_, hIndex, hMoored⟩
        intro other hOther
        rcases List.mem_cons.mp hOther with rfl | hOld
        · exact List.mem_cons_self ..
        · exact List.mem_cons_of_mem _ (hPath other hOld)
      · refine ⟨?_, rfl, hRead⟩
        intro other hOther
        cases hOther

theorem disconnectAll
    (hCalm : Calm env.plan)
    (links : List Link)
    (summary : ActivationSummary)
    (hState : Moored env state) :
    wpE (Amarian.disconnectAll env links summary)
      (fun _ after =>
        after.index = state.index ∧ Moored env after)
      state := by
  induction links generalizing state summary with
  | nil => exact ⟨rfl, hState⟩
  | cons link links ih =>
      unfold Amarian.disconnectAll
      rw [wpE_get_bind]
      split
      · exact ⟨rfl, hState⟩
      · rw [wpE_bind]
        refine wpE_mono
          (disconnectTip_spec hState.filed summary) ?_
        intro outcome after hStep
        have hIndex := hStep.frame.1
        have hAfter := hState.disconnectStep hCalm hStep
        cases outcome with
        | error failure => exact ⟨hIndex, hAfter⟩
        | ok summary =>
            refine wpE_mono (ih summary hAfter) ?_
            intro outcome last hLast
            exact ⟨hLast.1.trans hIndex, hLast.2⟩

/- A block that was connected leaves all judgements as is. -/
theorem eligible_connected
    {after : ChainState}
    {hash : Hash256}
    (hStep : ConnectStep env hash state (.ok true) after)
    (wanted : Hash256) :
    after.index.eligible wanted =
      state.index.eligible wanted := by
  generalize hOutcome :
    (Except.ok true : Except ActivationFailure Bool) =
      outcome at hStep
  cases hStep with
  | stopped => cases hOutcome
  | suspended => cases hOutcome
  | refused => cases hOutcome
  | connected hCandidate hBefore hRun hUndo hEntry hTip =>
      rw [hTip.frame.1, hEntry.frame.1]
      simp

theorem connectAll
    (hCalm : Calm env.plan)
    (links : List Link)
    (summary : ActivationSummary)
    (hEligible :
      ∀ link ∈ links,
        state.index.eligible link.hash = true)
    (hState : Moored env state) :
    wpE (Amarian.connectAll env links summary)
      (fun _ after => Moored env after) state := by
  induction links generalizing state summary with
  | nil => exact hState
  | cons link links ih =>
      unfold Amarian.connectAll
      rw [wpE_bind]
      refine wpE_mono
        (connectTip_spec hState.filed link.hash summary) ?_
      intro outcome after hStep
      have hAfter := hState.connectStep hCalm
        (hEligible link (List.mem_cons_self ..)) hStep
      cases outcome with
      | error failure => exact hAfter
      | ok done =>
          rcases done with ⟨applied, summary⟩
          cases applied with
          | true =>
              refine ih summary ?_ hAfter
              intro other hOther
              rw [eligible_connected hStep]
              exact hEligible other
                (List.mem_cons_of_mem _ hOther)
          | false => exact hAfter

theorem switchTo
    (hCalm : Calm env.plan)
    (fork : Link)
    (plan : ChainSwitch)
    (summary : ActivationSummary)
    (hEligible :
      ∀ link ∈ plan.connect,
        state.index.eligible link.hash = true)
    (hState : Moored env state) :
    wpE (Amarian.switchTo env fork plan summary)
      (fun _ after => Moored env after) state := by
  unfold Amarian.switchTo
  rw [wpE_lift_bind]
  refine wp_mono (hState.reachable plan.connect) ?_
  intro path middle hMiddle
  rcases hMiddle with ⟨hPath, hIndex, hMoored⟩
  rw [wpE_get_bind]
  simp only
  split
  · exact hMoored
  · rw [wpE_bind]
    refine wpE_mono
      (hMoored.disconnectAll hCalm plan.disconnect summary) ?_
    intro outcome reverted hReverted
    cases outcome with
    | error failure => exact hReverted.2
    | ok summary =>
        rw [afterE, wpE_bind]
        refine wpE_mono
          (hReverted.2.connectAll hCalm path summary ?_) ?_
        · intro link hLink
          rw [hReverted.1, hIndex]
          exact hEligible link (hPath link hLink)
        · intro outcome applied hApplied
          cases outcome with
          | error failure => exact hApplied
          | ok summary => exact hApplied

theorem activatePass
    (hCalm : Calm env.plan)
    (summary : ActivationSummary)
    (hState : Moored env state) :
    wpE (Amarian.activatePass env summary)
      (fun _ after => Moored env after) state := by
  have hIndex := hState.indexOk
  rcases hState.onShelf.rooted.tip_mem with
    ⟨tip, hTip, hHash, -⟩
  unfold Amarian.activatePass
  rw [wpE_get_bind]
  rcases hIndex.bestHeader_cases with
    ⟨hNone, -⟩ | ⟨target, hTarget, hBest, hEligible, -⟩
  · rw [hNone]
    exact hState
  · rw [hBest]
    simp only
    split
    · exact hState
    · rcases planChainSwitch_spec hIndex.tree hTip hTarget
        with ⟨fork, hFork, hPoint, -, hUp⟩
      rw [hHash] at hPoint hUp
      unfold BlockIndex.lineage
      rw [hPoint]
      simp only
      split
      · exact hState
      · refine hState.switchTo hCalm _ _ summary ?_
        intro link hLink
        refine hIndex.eligible_ancestor hTarget hEligible ?_
        rw [hUp]
        exact List.mem_append_left _
          (List.mem_reverse.mpr hLink)

theorem activateLoop
    (hCalm : Calm env.plan)
    (fuel : Nat)
    (summary : ActivationSummary)
    (hState : Moored env state) :
    wpE (Amarian.activateLoop env fuel summary)
      (fun _ after => Moored env after) state := by
  induction fuel generalizing state summary with
  | zero => exact hState
  | succ fuel ih =>
      unfold Amarian.activateLoop
      rw [wpE_bind]
      refine wpE_mono
        (hState.activatePass hCalm summary) ?_
      intro outcome after hAfter
      cases outcome with
      | error failure => exact hAfter
      | ok done =>
          rcases done with ⟨returned, summary⟩
          cases returned with
          | true => exact hAfter
          | false => exact ih summary hAfter

theorem activateBestChain
    (hCalm : Calm env.plan)
    (hState : Moored env state) :
    wpE (Amarian.activateBestChain env)
      (fun _ after => Moored env after) state := by
  unfold Amarian.activateBestChain
  rw [wpE_get_bind]
  exact hState.activateLoop hCalm _ _

theorem reset
    (hState : Moored env state) :
    Moored env
      { state with
        moments := [⟨state.db, state.index⟩] } where
  onShelf := hState.onShelf.reset
  tied :=
    { now := hState.tied.now
      moments := by
        intro moment hMoment
        rw [List.mem_singleton.mp hMoment]
        exact hState.tied.now }
  following := hState.following.same rfl rfl id

theorem step
    (hCalm : Calm env.plan)
    (hState : Moored env state)
    (call : Call) :
    Moored env (Amarian.step env state call) := by
  have hStart := hState.reset
  cases call with
  | acceptHeader header time =>
      exact hStart.headerStep (acceptHeader_spec header time _)
  | acceptBlock block time =>
      exact hStart.blockStep hCalm
        (acceptBlock_spec block time _)
  | activateBestChain =>
      exact hStart.activateBestChain hCalm

end Moored

------------------------------------------------------------
-- Starting Anew From Any Moment
------------------------------------------------------------

/- Every header on record has its parent on record, too. -/
abbrev Linked
    (moment : Moment) : Prop :=
  ParentClosed (isShelved moment.db.records.index)
    moment.index.tree

section Restart

variable {env : ChainEnv} {moment : Moment}

theorem Backed.shelved
    (hTree : TreeOk env.crypto env.params moment.index.tree)
    {link : Link}
    (hLink : link ∈ moment.index.tree)
    (hBacked :
      Backed env moment.index moment.db.records link.hash) :
    isShelved moment.db.records.index link = true := by
  by_cases hRoot : link.hash = env.root
  · have hSame := hTree.grown.key_injective hLink
      hTree.root_mem hRoot
    rw [hSame]
    exact isShelved_root rfl
  · have hOn : link.hash ∈
        branch moment.index.tree link.hash :=
      List.mem_map.mpr
        ⟨link, hTree.grown.self_mem_lineage hLink, rfl⟩
    simp [isShelved, (hBacked.recorded _ hOn hRoot).1]

/- No failure on record rules out what is eligible. -/
theorem Anchored.unblamed
    {fits : Link → StoredHeader → Prop}
    (hMoment : MomentOk env fits moment)
    (hAnchored :
      Anchored env moment.index moment.db.records)
    {link : Link}
    (hLink : link ∈ moment.index.tree)
    (hEligible : moment.index.eligible link.hash = true) :
    Unblamed env.crypto moment.index.tree
      (recordsOf moment.index.tree moment.db.records.index)
      link.hash := by
  intro record hRecord hFailure
  rcases mem_recordsOf.mp hRecord with
    ⟨failed, hFailed, hFound⟩
  have hHeader := (hMoment.shelved.of_lookup hMoment.tree
    hFailed hFound).1
  have hOut := hAnchored.blamed _ record hFound hFailure
  rw [hHeader, ← (hMoment.tree.header_of_mem hFailed).1,
    descendsFrom, decide_eq_false_iff_not, List.mem_map]
  rintro ⟨ancestor, hAncestor, hHash⟩
  have hIn := hAnchored.indexOk.eligible_ancestor hLink
    hEligible hAncestor
  rw [hHash, hOut] at hIn
  cases hIn

/- Only genesis can be what rules the committed tip out. -/
theorem Anchored.reopens
    {fits : Link → StoredHeader → Prop}
    (hMoment : MomentOk env fits moment)
    (hAnchored :
      Anchored env moment.index moment.db.records)
    (hLinked : Linked moment)
    (hGenesis : moment.index.eligible env.root = true) :
    Reopens env.crypto moment where
  closed := hLinked
  standing := by
    intro tip hTip
    have hBacked := hAnchored.tip
    rw [hTip, Option.getD_some] at hBacked
    rcases hBacked.known with ⟨link, hLink, rfl⟩
    have hOn : link.hash ∈
        branch moment.index.tree link.hash :=
      List.mem_map.mpr
        ⟨link, hMoment.tree.grown.self_mem_lineage hLink,
          rfl⟩
    exact ⟨link, hLink, rfl,
      hBacked.shelved hMoment.tree hLink,
      hAnchored.unblamed hMoment hLink
        (hBacked.eligible hGenesis _ hOn)⟩

theorem Restored.exists_twin
    {tree : List Link}
    {shelf : Shelf}
    {committed : Option Hash256}
    {loaded : LoadedChain}
    (hRestored :
      Restored c params tree shelf committed loaded)
    {old : Link}
    (hOld : old ∈ tree)
    (hKeep : isShelved shelf old = true) :
    ∃ twin ∈ loaded.index.tree,
      twin.header = old.header ∧ twin.hash = old.hash := by
  rcases exists_survivor hOld hKeep with
    ⟨twin, hTwin, hSame⟩
  rcases Link.of_unordered hSame with ⟨hHeader, hHash, -⟩
  rw [← hRestored.links] at hTwin
  exact ⟨twin, hTwin, hHeader, hHash⟩

theorem Restored.blamed
    {fits : Link → StoredHeader → Prop}
    (hMoment : MomentOk env fits moment)
    {loaded : LoadedChain}
    (hRestored :
      Restored env.crypto env.params moment.index.tree
        moment.db.records.index moment.db.records.tip
        loaded)
    {hash : Hash256}
    {record : StoredHeader}
    (hFound :
      moment.db.records.index.lookup hash = some record)
    (hFailure : record.failure = .itself) :
    loaded.index.eligible hash = false := by
  have hTree := hMoment.tree
  rw [← Bool.not_eq_true]
  intro hIn
  rcases (hRestored.eligible hash).mp hIn with
    ⟨old, hOld, rfl, -, hUnblamed⟩
  have hHeader :=
    (hMoment.shelved.of_lookup hTree hOld hFound).1
  have hNot := hUnblamed record
    (mem_recordsOf.mpr ⟨old, hOld, hFound⟩) hFailure
  rw [hHeader, ← (hTree.header_of_mem hOld).1,
    descendsFrom, decide_eq_false_iff_not] at hNot
  exact hNot (List.mem_map.mpr
    ⟨old, hTree.grown.self_mem_lineage hOld, rfl⟩)

theorem Restored.eligible_tip
    (hReopens : Reopens env.crypto moment)
    {loaded : LoadedChain}
    (hRestored :
      Restored env.crypto env.params moment.index.tree
        moment.db.records.index moment.db.records.tip
        loaded)
    (hRoot : loaded.index.eligible env.root = true) :
    loaded.index.eligible loaded.tip = true := by
  rw [hRestored.tip]
  cases hCommitted : moment.db.records.tip with
  | none => exact hRoot
  | some committed =>
      exact (hRestored.eligible committed).mpr
        (hReopens.standing committed hCommitted)

/- A run can go on from what was loaded. -/
theorem Moored.restart
    (env : ChainEnv)
    {later : FaultPlan}
    (hCalm : Calm later)
    {now : Int64}
    {fresh : ChainState}
    (hMoment : MomentOk env (fun _ _ => True) moment)
    (hAnchored :
      Anchored env moment.index moment.db.records)
    (hOrder :
      InOrder moment.index.tree moment.db.records.index)
    (hFresh :
      Amarian.restart { env with plan := later } now
          moment.db =
        .ok fresh) :
    Moored { env with plan := later } fresh := by
  have hReads : ∀ number, later .read number = false :=
    fun number => hCalm .read number (by simp)
  rcases (restart_eq_ok hReads hMoment hOrder).mp hFresh with
    ⟨loaded, hLoaded, rfl⟩
  rcases restoreChain_records hMoment.tree hMoment.shelved
    now moment.db.records.tip with ⟨hIff, hRestores⟩
  rcases hIff.mp ⟨loaded, hLoaded⟩ with
    ⟨hLinked, hStanding⟩
  have hReopens : Reopens env.crypto moment :=
    ⟨hLinked, hStanding⟩
  have hRestored := hRestores loaded hLoaded
  have hLine :
      branch loaded.index.tree loaded.tip =
        branch moment.index.tree loaded.tip :=
    hRestored.resumed hMoment hReopens
  rcases hRestored.tip_kept hMoment hReopens with
    ⟨link, hLink, hHash, hKeep⟩
  rcases hRestored.exists_twin hLink hKeep with
    ⟨tip, hTip, -, hTipHash⟩
  rw [hHash] at hTipHash
  have hBacked := hAnchored.tip
  rw [← hRestored.tip] at hBacked
  constructor
  · refine ⟨⟨⟨hRestored.ok, fun _ _ => Set.mem_univ _,
      hMoment.bodies⟩, tip, hTip, ?_⟩,
      ⟨⟨hRestored.ok.tree, ?_, hMoment.bodies⟩, by simp⟩,
      fun _ => trivial⟩
    · rw [hTipHash]
      rfl
    · intro hash record hFound
      rcases hMoment.shelved hash record hFound with
        ⟨old, hOld, rfl, hHeader, -⟩
      rcases hRestored.exists_twin hOld
        (by simp [isShelved, hFound]) with
        ⟨twin, hTwin, hSame, hSameHash⟩
      exact ⟨twin, hTwin, hSameHash,
        hHeader.trans hSame.symm, trivial⟩
  · refine ⟨⟨hRestored.ok,
      fun _ _ => hRestored.blamed hMoment, ?_,
      hAnchored.sinkless⟩, by simp⟩
    rw [← hRestored.tip]
    refine ⟨⟨tip, hTip, hTipHash⟩, ?_, ?_⟩
    · rw [hLine]
      exact hBacked.recorded
    · intro hRoot hash hOn
      have hIn := hRestored.eligible_tip hReopens hRoot
      rw [← hTipHash] at hIn hOn
      rcases List.mem_map.mp hOn with ⟨above, hAbove, rfl⟩
      exact hRestored.ok.eligible_ancestor hTip hIn hAbove
  · constructor
    intro _ _
    rw [← hRestored.tip]
    rcases hRestored.ok.tree.exists_branch_eq_cons hTip with
      ⟨below, hCons⟩
    rw [hTipHash] at hCons
    have hChain :
        resumeAt loaded.index loaded.tip =
          loaded.tip :: below := hCons
    rw [hChain]
    rfl

end Restart

------------------------------------------------------------
-- Runs With Restarts
------------------------------------------------------------

/- The databases a stop during the last call can leave. -/
def ChainState.leftovers
    (state : ChainState) : List Moment :=
  ⟨state.db, state.index⟩ :: state.moments

/-
  A run that may stop after any write and start anew, again
  and again, over a store that refuses header records alone.
-/
inductive Lived
    (env : ChainEnv)
    (condition : Moment → Prop) :
    FaultPlan → ChainState → Prop
  | fresh
      {plan : FaultPlan}
      (hCalm : Calm plan) :
      Lived env condition plan
        (.fresh env.crypto env.params)
  | call
      {plan : FaultPlan}
      {state : ChainState}
      (hLived : Lived env condition plan state)
      (call : Call) :
      Lived env condition plan
        (step { env with plan } state call)
  | restart
      {plan later : FaultPlan}
      {state fresh : ChainState}
      {moment : Moment}
      {now : Int64}
      (hLived : Lived env condition plan state)
      (hMoment : moment ∈ state.leftovers)
      (hCondition : condition moment)
      (hCalm : Calm later)
      (hFresh :
        restart { env with plan := later } now moment.db =
          .ok fresh) :
      Lived env condition later fresh

/-
  No header is on record without its parent, the records are
  numbered as their headers came, what rules a header out is
  on record, too, and genesis is not ruled out.
-/
structure Recoverable
    (env : ChainEnv)
    (moment : Moment) : Prop where
  linked : Linked moment
  ordered :
    InOrder moment.index.tree moment.db.records.index
  judged :
    ∀ link ∈ moment.index.tree,
      isShelved moment.db.records.index link = true →
        Unblamed env.crypto moment.index.tree
            (recordsOf moment.index.tree
              moment.db.records.index) link.hash →
          moment.index.eligible link.hash = true
  genesis : moment.index.eligible env.root = true

/- Chain selection compares entries as it did before. -/
def SameOrder
    (before after : BlockIndex) : Prop :=
  ∀ first ∈ before.entries, ∀ second ∈ before.entries,
    ∀ firstTwin ∈ after.entries,
      ∀ secondTwin ∈ after.entries,
        firstTwin.hash = first.hash →
          secondTwin.hash = second.hash →
            isBetterTip firstTwin secondTwin =
              isBetterTip first second

section Order

variable {env : ChainEnv} {moment : Moment}
variable {fresh : ChainState}
variable {fits : Link → StoredHeader → Prop}

theorem Reopened.isEligible_eq
    (hMoment : MomentOk env fits moment)
    (hAnchored :
      Anchored env moment.index moment.db.records)
    (hRecoverable : Recoverable env moment)
    (hReopened :
      Reopened env.crypto env.params moment fresh)
    {entry twin : BlockIndexEntry}
    (hEntry : entry ∈ moment.index.entries)
    (hTwin : twin ∈ fresh.index.entries)
    (hHash : twin.hash = entry.hash) :
    twin.isEligible = entry.isEligible := by
  rw [← hReopened.ok.eligible_entry hTwin,
    ← hAnchored.indexOk.eligible_entry hEntry, hHash,
    Bool.eq_iff_iff, hReopened.eligible]
  constructor
  · rintro ⟨link, hLink, hSame, hKeep, hUnblamed⟩
    rw [← hSame] at hUnblamed ⊢
    exact hRecoverable.judged link hLink hKeep hUnblamed
  · intro hIn
    rcases hReopened.known twin.toLink
      (IndexOk.link_mem hTwin) with
      ⟨old, hOld, hKeep, hUnordered⟩
    have hSame : old.hash = entry.hash :=
      (Link.of_unordered hUnordered).2.1.symm.trans hHash
    rw [← hSame] at hIn ⊢
    exact ⟨old, hOld, rfl, hKeep,
      hAnchored.unblamed hMoment hOld hIn⟩

theorem Reopened.sameOrder
    (hMoment : MomentOk env fits moment)
    (hAnchored :
      Anchored env moment.index moment.db.records)
    (hRecoverable : Recoverable env moment)
    (hReopened :
      Reopened env.crypto env.params moment fresh) :
    SameOrder moment.index fresh.index := by
  intro first hFirst second hSecond firstTwin hFirstTwin
    secondTwin hSecondTwin hFirstHash hSecondHash
  rw [Bool.eq_iff_iff, isBetterTip_iff, isBetterTip_iff,
    hReopened.isEligible_eq hMoment hAnchored hRecoverable
      hFirst hFirstTwin hFirstHash,
    hReopened.isEligible_eq hMoment hAnchored hRecoverable
      hSecond hSecondTwin hSecondHash,
    hReopened.order first.toLink (IndexOk.link_mem hFirst)
      second.toLink (IndexOk.link_mem hSecond)
      firstTwin.toLink (IndexOk.link_mem hFirstTwin)
      secondTwin.toLink (IndexOk.link_mem hSecondTwin)
      hFirstHash hSecondHash]

end Order

theorem Lived.moored
    {env : ChainEnv}
    {plan : FaultPlan}
    {state : ChainState}
    (hLived : Lived env (Recoverable env) plan state) :
    Calm plan ∧ Moored { env with plan } state := by
  induction hLived with
  | @fresh plan hCalm =>
      exact ⟨hCalm, Moored.fresh { env with plan }⟩
  | call hLived call ih =>
      exact ⟨ih.1, ih.2.step ih.1 call⟩
  | @restart plan later state fresh moment now hLived
      hMoment hCondition hCalm hFresh ih =>
      rcases ih with ⟨-, hMoored⟩
      refine ⟨hCalm, ?_⟩
      have hAnchored := hMoored.tied.moment hMoment
      exact Moored.restart { env with plan } hCalm
        (hMoored.onShelf.moment hMoment) hAnchored
        hCondition.ordered hFresh

/-
  Whenever the process stops while what it leaves behind is
  recoverable, it starts again with all that was recorded,
  in the order it had.
-/
theorem recovers_when_recoverable
    (env : ChainEnv)
    {plan : FaultPlan}
    {state : ChainState}
    (hLived : Lived env (Recoverable env) plan state)
    {moment : Moment}
    (hMoment : moment ∈ state.leftovers)
    (hRecoverable : Recoverable env moment)
    {later : FaultPlan}
    (hCalm : Calm later)
    (now : Int64) :
    ∃ fresh,
      restart { env with plan := later } now moment.db =
          .ok fresh ∧
        Reopened env.crypto env.params moment fresh ∧
        SameOrder moment.index fresh.index := by
  have hReads : ∀ number, later .read number = false :=
    fun number => hCalm .read number (by simp)
  have hMoored := hLived.moored.2
  have hOk := hMoored.onShelf.moment hMoment
  have hAnchored := hMoored.tied.moment hMoment
  have hReopens := hAnchored.reopens hOk
    hRecoverable.linked hRecoverable.genesis
  rcases hOk.restart hReads hRecoverable.ordered with
    ⟨hIff, hReopened⟩
  rcases hIff.mpr hReopens with ⟨fresh, hFresh⟩
  have hSame := hReopened fresh hFresh
  exact ⟨fresh, hFresh, hSame,
    hSame.sameOrder hOk hAnchored
      ⟨hRecoverable.linked, hRecoverable.ordered,
        hRecoverable.judged, hRecoverable.genesis⟩⟩

/- With no failure, what is on record is recoverable if no
   header is there without its parent. -/
theorem Recoverable.of_eligible
    {env : ChainEnv}
    {plan : FaultPlan}
    {calls : List Call}
    {state : ChainState}
    (hRun : state = run { env with plan } calls)
    (hLinked : Linked ⟨state.db, state.index⟩)
    (hAll :
      ∀ link ∈ state.index.tree,
        state.index.eligible link.hash = true) :
    Recoverable env ⟨state.db, state.index⟩ := by
  have hState : OnShelf { env with plan } Numbered state := by
    rw [hRun]
    exact OnShelf.runFrom
      ⟨Rooted.fresh _, ShelfOk.fresh _ Numbered,
        fun _ => rfl⟩
      calls
  have hMoment := hState.moment (List.mem_cons_self ..)
  exact
    { linked := hLinked
      ordered := hMoment.shelved.inOrder hMoment.tree
      judged := fun link hLink _ _ => hAll link hLink
      genesis := hAll _ hMoment.tree.root_mem }

namespace Sample

theorem losing_calm : Calm losing := by
  intro op number hOther
  cases op with
  | commitHeader record => exact absurd rfl (hOther record)
  | _ => rfl

theorem lived_lostHeader
    (condition : Moment → Prop)
    (calls : List Call) :
    Lived env condition losing (lostHeader calls) := by
  have hRun : ∀ state, Lived env condition losing state →
      Lived env condition losing
        (runFrom { env with plan := losing } state
          calls) := by
    induction calls with
    | nil => exact fun _ hLived => hLived
    | cons call calls ih =>
        exact fun _ hLived => ih _ (hLived.call call)
  exact hRun _ (.fresh losing_calm)

/- The header that is lost has one above it on record. -/
def lostParent : ChainState :=
  lostHeader
    [.acceptHeader b1.header genesisTimestamp,
      .acceptHeader b2.header genesisTimestamp]

theorem lived_lostLeaf :
    Lived env (Recoverable env) losing lostLeaf :=
  lived_lostHeader _ _

theorem lived_lostParent :
    Lived env (fun _ => True) losing lostParent :=
  lived_lostHeader _ _

theorem lostLeaf_run :
    lostLeaf =
      run { env with plan := losing } lostLeafCalls := by
  rw [lostLeaf, lostHeader]

theorem lostLeaf_recoverable :
    Recoverable env ⟨lostLeaf.db, lostLeaf.index⟩ := by
  have hLinked : Linked ⟨lostLeaf.db, lostLeaf.index⟩ := by
    unfold Linked ParentClosed
    rw [lostLeaf, lostHeader_eq]
    decide +kernel
  have hAll :
      ∀ link ∈ lostLeaf.index.tree,
        lostLeaf.index.eligible link.hash = true := by
    rw [lostLeaf, lostHeader_eq]
    decide +kernel
  exact .of_eligible lostLeaf_run hLinked hAll

end Sample

/- One header is lost, and two others are found again. -/
theorem recovers_lostLeaf :
    Sample.lostLeaf.db.records.index.lookup Sample.b1Hash =
        none ∧
      ∃ fresh,
        restart { Sample.env with plan := fun _ _ => false }
            0 Sample.lostLeaf.db =
          .ok fresh ∧
          Reopened Sample.env.crypto Sample.env.params
            ⟨Sample.lostLeaf.db, Sample.lostLeaf.index⟩
            fresh ∧
          SameOrder Sample.lostLeaf.index fresh.index := by
  have hOpens := recovers_when_recoverable Sample.env
    Sample.lived_lostLeaf (List.mem_cons_self ..)
    Sample.lostLeaf_recoverable
    (show Calm (fun _ _ => false) from fun _ _ _ => rfl) 0
  dsimp only at hOpens
  exact ⟨Sample.lostLeaf_records.2.1, hOpens⟩

/-
  A header goes on record above one whose record was
  refused, and then the store does not open any more.
-/
theorem lostParent_not_recovered :
    Lived Sample.env (fun _ => True) Sample.losing
        Sample.lostParent ∧
      (⟨Sample.lostParent.db, Sample.lostParent.index⟩ ∈
        Sample.lostParent.leftovers) ∧
      Calm Sample.env.plan ∧
      ¬∃ fresh,
        restart Sample.env 0 Sample.lostParent.db =
          .ok fresh := by
  refine ⟨Sample.lived_lostParent, List.mem_cons_self ..,
    fun _ _ _ => rfl, ?_⟩
  rintro ⟨fresh, hFresh⟩
  have hFails :
      (restart Sample.env 0 Sample.lostParent.db).isOk =
        false := by
    rw [Sample.lostParent, Sample.lostHeader_eq,
      Sample.env_eq]
    decide +kernel
  rw [hFresh] at hFails
  cases hFails

end Amarian
