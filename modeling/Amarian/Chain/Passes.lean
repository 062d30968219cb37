import Amarian.Chain.Progress

/-
  What activation does over a store that refuses nothing.

  Every pass of the loop settles, moves the tip up to where
  the bodies of the best branch reach, or rules a block out.
  The number of blocks in the running bounds the passes, so
  the call returns.

  Key definitions include:
    * `PassStep`
    * `Activated`

  Key theorems include:
    * `activatePass_spec`
    * `activateBestChain_spec`
-/

------------------------------------------------------------
-- One Pass
------------------------------------------------------------

namespace Amarian

variable {env : ChainEnv} {state after : ChainState}

/- `IsBetterTip` between two blocks of the tree. -/
theorem better_iff
    {index : BlockIndex}
    (hIndex : IndexOk env.crypto env.params index)
    {candidate incumbent : Link}
    (hCandidate : candidate ∈ index.tree)
    (hIncumbent : incumbent ∈ index.tree) :
    index.better candidate.hash incumbent.hash = true ↔
      index.eligible candidate.hash = true ∧
        (index.eligible incumbent.hash = true →
          candidate.outranks incumbent) := by
  rcases List.mem_map.mp hCandidate with ⟨first, hFirst, rfl⟩
  rcases List.mem_map.mp hIncumbent with ⟨second, hSecond, rfl⟩
  rw [BlockIndex.better, hIndex.find_of_mem hFirst,
    hIndex.find_of_mem hSecond, hIndex.eligible_entry hFirst,
    hIndex.eligible_entry hSecond]
  exact isBetterTip_iff first second

/- Why a call leaves the tip where it is. -/
inductive Settled
    (state : ChainState) : Prop
  | nothing
      (hNone : state.index.bestHeader = none)
  | atBest
      (hBest : state.index.bestHeader = some state.tip)
  | noGain
      {target : Hash256}
      {top : Link}
      (hBest : state.index.bestHeader = some target)
      (hAttain :
        attain state.index.tree state.db.records.blocks
          target = some top)
      (hBetter :
        state.index.better top.hash state.tip = false)

/- The call sets out for the top of what is stored. -/
structure Heading
    (state : ChainState)
    (target : Hash256)
    (top : Link) : Prop where
  best : state.index.bestHeader = some target
  attain :
    attain state.index.tree state.db.records.blocks target =
      some top
  better : state.index.better top.hash state.tip = true

/- What a pass can do, and whether the call returns with it. -/
inductive PassStep
    (env : ChainEnv)
    (state : ChainState) : Bool → ChainState → Prop
  | settled
      {after : ChainState}
      (hSettled : Settled state)
      (hIndex : after.index = state.index)
      (hChain : after.chain = state.chain) :
      PassStep env state true after
  | advanced
      {target : Hash256}
      {top : Link}
      {after : ChainState}
      (hHeading : Heading state target top)
      (hIndex : SameIndex state.index after.index)
      (hChain :
        after.chain = branch state.index.tree top.hash) :
      PassStep env state false after
  | ruledOut
      {target : Hash256}
      {top bad parent : Link}
      {after : ChainState}
      (hHeading : Heading state target top)
      (hBad : bad ∈ ancestry state.index.tree top.hash)
      (hAbove : bad.parent = some parent.hash)
      (hConnects : Connects env state parent.hash)
      (hFails : ¬Connects env state bad.hash)
      (hTree : after.index.tree = state.index.tree)
      (hEligible :
        ∀ hash,
          after.index.eligible hash =
            (state.index.eligible hash &&
              !descendsFrom state.index.tree bad.hash hash))
      (hChain :
        after.chain = branch state.index.tree parent.hash) :
      PassStep env state false after

/- Over a reliable store the walk finds what is stored. -/
theorem reachable_spec
    (hPlan : Reliable env.plan)
    (links : List Link)
    (state : ChainState) :
    wp (reachable env links)
      (fun path after =>
        path =
            links.takeWhile
              (fun link =>
                (state.db.records.blocks
                  link.hash).isSome) ∧
          ∃ db,
            DbQuiet env.plan state.db db ∧
              after = { state with db })
      state := by
  induction links generalizing state with
  | nil => exact ⟨rfl, state.db, .refl _, rfl⟩
  | cons link links ih =>
      unfold reachable
      rw [wp_bind, wp_onDb]
      rcases ChainDb.haveBlock_cases
        env.plan link.hash state.db with
        ⟨hQuiet, hAnswer⟩
      rcases hRead : ChainDb.haveBlock env.plan link.hash
        state.db with ⟨found, db⟩
      rw [hRead] at hQuiet hAnswer
      have hFound :
          found =
            (state.db.records.blocks link.hash).isSome := by
        rcases hAnswer with hRight | ⟨-, hNot⟩
        · exact hRight
        · exact absurd (Or.inl hPlan.calm) hNot
      subst hFound
      simp only
      split
      case isFalse hAbsent =>
        refine ⟨?_, db, hQuiet, rfl⟩
        rw [List.takeWhile_cons, if_neg hAbsent]
        rfl
      case isTrue hHeld =>
        rw [wp_bind]
        refine wp_mono (ih { state with db }) ?_
        rintro path after ⟨hPath, last, hRest, rfl⟩
        refine ⟨?_, last, hQuiet.trans hRest, rfl⟩
        rw [List.takeWhile_cons, if_pos hHeld, hPath,
          hQuiet.records]
        rfl

/- A block of the active chain has a complete branch. -/
theorem LiveState.complete_of_mem
    (hPlan : Reliable env.plan)
    (hLive : LiveState env state)
    {tip link : Link}
    (hTip : tip ∈ state.index.tree)
    (hHash : tip.hash = state.tip)
    (hLink : link ∈ ancestry state.index.tree tip.hash) :
    complete state.index.tree state.db.records.blocks
      link.hash = true := by
  rcases hLive.connects_tip hPlan hHash with ⟨coins, hReplay⟩
  have hTree := hLive.sound.ok.index.tree
  have hAll := complete_of_replay hTree hTip hReplay
  rw [complete, List.all_eq_true] at hAll ⊢
  intro other hOther
  exact hAll other
    (hTree.grown.mem_lineage_trans hTip hLink hOther)

theorem switchTo_spec
    (hPlan : Reliable env.plan)
    (hLive : LiveState env state)
    {tip fork target : Link}
    {plan : ChainSwitch}
    (hTip : tip ∈ state.index.tree)
    (hHash : tip.hash = state.tip)
    (hFork : fork ∈ state.index.tree)
    (hTarget : target ∈ state.index.tree)
    (hBest : state.index.bestHeader = some target.hash)
    (hEligible : state.index.eligible target.hash = true)
    (hDown :
      ancestry state.index.tree tip.hash =
        plan.disconnect ++
          ancestry state.index.tree fork.hash)
    (hUp :
      ancestry state.index.tree target.hash =
        plan.connect.reverse ++
          ancestry state.index.tree fork.hash)
    (summary : ActivationSummary) :
    wpE (switchTo env fork plan summary)
      (fun outcome after =>
        ∃ returned summary,
          outcome = .ok (returned, summary) ∧
            LiveState env after ∧
            after.db.records.blocks =
              state.db.records.blocks ∧
            PassStep env state returned after)
      state := by
  have hTree := hLive.sound.ok.index.tree
  have hForkLine :
      fork ∈ ancestry state.index.tree tip.hash := by
    rw [hDown]
    exact List.mem_append_right _
      (hTree.grown.self_mem_lineage hFork)
  have hClimb := climb_of_ancestry hTree hFork hTarget hUp
  rcases attain_takeWhile hTree hFork
    hClimb (hLive.complete_of_mem hPlan hTip hHash hForkLine) with
    ⟨hPath, hAttain⟩
  unfold switchTo
  rw [wpE_lift_bind]
  refine wp_mono (reachable_spec hPlan plan.connect state) ?_
  rintro path middle ⟨hWalk, db, hQuiet, rfl⟩
  rw [← hWalk] at hPath hAttain
  have hNow := (LiveState.kept hPlan).quiet _ _ hLive hQuiet
  rw [wpE_get_bind]
  simp only
  split
  case isTrue hWorse =>
    refine ⟨true, _, rfl, hNow, ?_, .settled ?_ rfl rfl⟩
    · exact congrArg Records.blocks hQuiet.records
    · rw [Bool.not_eq_true'] at hWorse
      exact .noGain hBest hAttain hWorse
  case isFalse hGain =>
    have hHeading :
        Heading state target.hash
          (path.getLast?.getD fork) := by
      refine ⟨hBest, hAttain, ?_⟩
      rw [Bool.not_eq_true', Bool.not_eq_false] at hGain
      exact hGain
    rw [wpE_bind]
    refine wpE_mono (disconnectAll_spec hPlan hNow hFork ?_
      summary) ?_
    · have hChain := hLive.chain_eq hHash
      rw [branch, hDown, List.map_append] at hChain
      exact hChain
    · rintro outcome reverted ⟨⟨summary, rfl⟩, hReverted,
        hIndex, hBlocks, hChain⟩
      rw [afterE, wpE_bind]
      have hBodies :
          reverted.db.records.blocks =
            state.db.records.blocks := by
        rw [hBlocks, hQuiet.records]
      have hOn : fork.hash = reverted.tip := by
        rcases hTree.exists_branch_eq_cons hFork with
          ⟨below, hCons⟩
        rw [ChainState.tip, hChain]
        exact (congrArg (List.headD · _) hCons).symm
      have hForkNow : fork ∈ reverted.index.tree := by
        rw [hIndex]
        exact hFork
      have hPathNow :
          Climb reverted.index.tree fork path
            (path.getLast?.getD fork) := by
        rw [hIndex]
        exact hPath
      refine wpE_mono (connectAll_spec hPlan hReverted
        hForkNow hOn hPathNow ?_ ?_ summary) ?_
      · intro link hLink
        rw [hBodies]
        rw [hWalk] at hLink
        have hHeld := List.mem_takeWhile_imp hLink
        exact hHeld
      · intro link hLink
        rw [hIndex]
        refine hLive.sound.ok.index.eligible_ancestor hTarget
          hEligible ?_
        rw [hWalk] at hLink
        rw [hUp, List.mem_append, List.mem_reverse]
        exact Or.inl (List.takeWhile_subset _ hLink)
      · rintro outcome after ⟨⟨summary, rfl⟩, hAfter, hSame,
          hClimbed⟩
        refine ⟨false, _, rfl, hAfter, hSame.trans hBodies,
          ?_⟩
        have hConnects := Connects.congr env hBodies
          (congrArg BlockIndex.tree hIndex)
        cases hClimbed with
        | reached hRest hEnd =>
            rw [hIndex] at hRest hEnd
            exact .advanced hHeading hRest hEnd
        | ruledOut hBad hAbove hBelow hFails hSame hOut
            hEnd =>
            rw [hConnects] at hBelow hFails
            simp only [hIndex] at hSame hOut hEnd
            refine .ruledOut hHeading ?_ hAbove hBelow hFails
              hSame hOut hEnd
            rw [hPath.ancestry_eq hTree, List.mem_append,
              List.mem_reverse]
            exact Or.inl hBad

/- The fork point of a plan is on the chain it leaves. -/
theorem contains_fork
    {c : Crypto}
    {params : ChainParams}
    {tree : List Link}
    (hTree : TreeOk c params tree)
    {fork : Link}
    {reverted : List Hash256}
    (hFork : fork ∈ tree) :
    ActiveChain.contains
        (reverted ++ branch tree fork.hash) fork = true := by
  rcases hTree.exists_branch_eq_cons hFork with ⟨below, hCons⟩
  have hHeight := hTree.height_add_one hFork
  have hLength :
      (branch tree fork.hash).length =
        fork.height.toNat + 1 := by
    rw [branch, List.length_map, hHeight]
  rw [hCons, List.length_cons, Nat.add_right_cancel_iff]
    at hLength
  unfold ActiveChain.contains ActiveChain.atHeight
  rw [beq_iff_eq, hCons, List.reverse_append,
    List.reverse_cons, List.append_assoc, ← hLength,
    ← List.length_reverse, List.getElem?_append_right
      (Nat.le_refl _), Nat.sub_self]
  rfl

theorem activatePass_spec
    (hPlan : Reliable env.plan)
    (hLive : LiveState env state)
    (summary : ActivationSummary) :
    wpE (activatePass env summary)
      (fun outcome after =>
        ∃ returned summary,
          outcome = .ok (returned, summary) ∧
            LiveState env after ∧
            after.db.records.blocks =
              state.db.records.blocks ∧
            PassStep env state returned after)
      state := by
  have hTree := hLive.sound.ok.index.tree
  rcases hLive.exists_tip with ⟨tip, hTip, hHash, hChain⟩
  unfold activatePass
  rw [wpE_get_bind]
  rcases hLive.sound.ok.index.bestHeader_cases with
    ⟨hNone, -⟩ | ⟨target, hTarget, hBest, hEligible, -⟩
  · rw [hNone]
    exact ⟨true, _, rfl, hLive, rfl,
      .settled (.nothing hNone) rfl rfl⟩
  · rw [hBest]
    simp only
    split
    case isTrue hSame =>
      rw [hSame] at hBest
      exact ⟨true, _, rfl, hLive, rfl,
        .settled (.atBest hBest) rfl rfl⟩
    case isFalse hElse =>
      rcases planChainSwitch_spec hTree hTip hTarget with
        ⟨fork, hFork, hPoint, hDown, hUp⟩
      rw [hHash] at hPoint hDown hUp
      unfold BlockIndex.lineage
      rw [hPoint]
      simp only
      have hOn :
          ActiveChain.contains state.chain fork = true := by
        rw [hChain, hHash, branch, hDown, List.map_append]
        exact contains_fork hTree hFork
      rw [hOn]
      simp only [Bool.not_true, Bool.false_eq_true, if_false]
      rw [← hHash] at hDown hUp ⊢
      exact switchTo_spec hPlan hLive hTip hHash hFork
        hTarget hBest hEligible hDown hUp summary

------------------------------------------------------------
-- The Loop
------------------------------------------------------------

/- The passes of a call that returned. -/
inductive Activated
    (env : ChainEnv) : ChainState → ChainState → Prop
  | returned
      {state after : ChainState}
      (hPass : PassStep env state true after)
      (hBlocks :
        after.db.records.blocks =
          state.db.records.blocks) :
      Activated env state after
  | again
      {state middle after : ChainState}
      (hPass : PassStep env state false middle)
      (hLive : LiveState env middle)
      (hBlocks :
        middle.db.records.blocks =
          state.db.records.blocks)
      (hRest : Activated env middle after) :
      Activated env state after

theorem better_self
    {index : BlockIndex}
    (hIndex : IndexOk env.crypto env.params index)
    {link : Link}
    (hLink : link ∈ index.tree) :
    index.better link.hash link.hash = false := by
  rw [← Bool.not_eq_true, better_iff hIndex hLink hLink]
  rintro ⟨hEligible, hOutranks⟩
  exact Link.outranks_irrefl _ (hOutranks hEligible)

theorem tip_of_chain
    {c : Crypto}
    {params : ChainParams}
    {tree : List Link}
    (hTree : TreeOk c params tree)
    {link : Link}
    (hLink : link ∈ tree)
    (hChain : state.chain = branch tree link.hash) :
    state.tip = link.hash := by
  rcases hTree.exists_branch_eq_cons hLink with ⟨below, hCons⟩
  rw [ChainState.tip, hChain, hCons, List.headD_cons]

/- Once the tip is where it was headed, the call returns. -/
theorem returned_of_advanced
    {middle : ChainState}
    {target : Hash256}
    {top : Link}
    {returned : Bool}
    (hLive : LiveState env middle)
    (hHeading : Heading state target top)
    (hIndex : SameIndex state.index middle.index)
    (hBlocks :
      middle.db.records.blocks = state.db.records.blocks)
    (hTop : top ∈ middle.index.tree)
    (hChain :
      middle.chain = branch middle.index.tree top.hash)
    (hPass : PassStep env middle returned after) :
    returned = true := by
  have hTip := tip_of_chain hLive.sound.ok.index.tree hTop
    hChain
  have hStuck :
      ∀ {next : Hash256} {other : Link},
        ¬Heading middle next other := by
    rintro next other ⟨hBest, hAttain, hBetter⟩
    rw [hIndex.best, hHeading.best, Option.some_inj] at hBest
    rw [hIndex.tree, hBlocks, ← hBest, hHeading.attain,
      Option.some_inj] at hAttain
    rw [← hAttain, hTip,
      better_self hLive.sound.ok.index hTop] at hBetter
    cases hBetter
  cases hPass with
  | settled => rfl
  | advanced hNext => exact absurd hNext hStuck
  | ruledOut hNext => exact absurd hNext hStuck

/- A ruling-out leaves fewer blocks in the running. -/
theorem openCount_ruledOut
    {bad : Link}
    (hBefore : IndexOk env.crypto env.params state.index)
    (hAfter : IndexOk env.crypto env.params after.index)
    (hBad : bad ∈ state.index.tree)
    (hWas : state.index.eligible bad.hash = true)
    (hTree : after.index.tree = state.index.tree)
    (hEligible :
      ∀ hash,
        after.index.eligible hash =
          (state.index.eligible hash &&
            !descendsFrom state.index.tree bad.hash hash)) :
    openCount after.index.entries <
      openCount state.index.entries := by
  rw [hBefore.openCount_eq, hAfter.openCount_eq, hTree]
  refine countP_lt_of_mem hBad ?_ ?_ hWas
  · intro link _ hLink
    rw [hEligible, Bool.and_eq_true] at hLink
    exact hLink.1
  · have hSelf :
        descendsFrom state.index.tree bad.hash bad.hash =
          true := by
      rw [descendsFrom, decide_eq_true_eq]
      exact List.mem_map_of_mem
        (hBefore.tree.grown.self_mem_lineage hBad)
    rw [hEligible, hSelf, Bool.not_true, Bool.and_false]

theorem Heading.top_mem
    {target : Hash256}
    {top : Link}
    (hHeading : Heading state target top) :
    top ∈ state.index.tree :=
  Arrival.mem_of_mem_lineage (attain_mem hHeading.attain)

/- Headed for a block that is in the running. -/
theorem Heading.eligible
    {target : Hash256}
    {top : Link}
    (hIndex : IndexOk env.crypto env.params state.index)
    (hHeading : Heading state target top) :
    state.index.eligible top.hash = true := by
  rcases hIndex.bestHeader_cases with
    ⟨hNone, -⟩ | ⟨best, hBest, hHeader, hEligible, -⟩
  · rw [hHeading.best] at hNone
    cases hNone
  · rw [hHeading.best, Option.some_inj] at hHeader
    have hTop := attain_mem hHeading.attain
    rw [hHeader] at hTop
    exact hIndex.eligible_ancestor hBest hEligible hTop

/- The last pass of a call. -/
theorem activateLoop_last
    (hPlan : Reliable env.plan)
    (hLive : LiveState env state)
    {fuel : Nat}
    (hFuel : 1 ≤ fuel)
    (hLast :
      ∀ returned after,
        PassStep env state returned after →
          returned = true)
    (summary : ActivationSummary) :
    wpE (activateLoop env fuel summary)
      (fun outcome after =>
        (∃ summary, outcome = .ok (some summary)) ∧
          LiveState env after ∧
          Activated env state after)
      state := by
  rcases Nat.exists_eq_add_of_le' hFuel with ⟨fuel, rfl⟩
  unfold activateLoop
  rw [wpE_bind]
  refine wpE_mono (activatePass_spec hPlan hLive summary) ?_
  rintro _ after ⟨returned, summary, rfl, hAfter, hBlocks,
    hPass⟩
  rcases hLast returned after hPass with rfl
  exact ⟨⟨summary, rfl⟩, hAfter, .returned hPass hBlocks⟩

/-
  Two passes more than there are blocks in the running are
  enough: a pass that does not return rules one out, or it
  is the last but one.
-/
theorem activateLoop_spec
    (hPlan : Reliable env.plan)
    (hLive : LiveState env state)
    {fuel : Nat}
    (hFuel : openCount state.index.entries + 2 ≤ fuel)
    (summary : ActivationSummary) :
    wpE (activateLoop env fuel summary)
      (fun outcome after =>
        (∃ summary, outcome = .ok (some summary)) ∧
          LiveState env after ∧
          Activated env state after)
      state := by
  induction fuel generalizing state summary with
  | zero => omega
  | succ fuel ih =>
      unfold activateLoop
      rw [wpE_bind]
      refine wpE_mono (activatePass_spec hPlan hLive
        summary) ?_
      rintro _ middle ⟨returned, summary, rfl, hMiddle,
        hBlocks, hPass⟩
      have hAgain :
          ∀ after,
            returned = false →
              Activated env middle after →
                Activated env state after := by
        rintro after rfl hRest
        exact .again hPass hMiddle hBlocks hRest
      cases hPass with
      | settled hSettled hIndex hChain =>
          exact ⟨⟨summary, rfl⟩, hMiddle,
            .returned (.settled hSettled hIndex hChain)
              hBlocks⟩
      | advanced hHeading hIndex hChain =>
          have hTop := hHeading.top_mem
          rw [← hIndex.tree] at hTop hChain
          refine wpE_mono (activateLoop_last hPlan hMiddle
            (by omega) ?_ summary) ?_
          · intro returned after hNext
            exact returned_of_advanced hMiddle hHeading
              hIndex hBlocks hTop hChain hNext
          · rintro outcome after ⟨hOk, hAfter, hRest⟩
            exact ⟨hOk, hAfter, hAgain after rfl hRest⟩
      | ruledOut hHeading hBad hAbove hConnects hFails hTree
          hEligible hChain =>
          have hWas :=
            hLive.sound.ok.index.eligible_ancestor
              hHeading.top_mem
              (hHeading.eligible hLive.sound.ok.index) hBad
          have hFewer := openCount_ruledOut
            hLive.sound.ok.index hMiddle.sound.ok.index
            (Arrival.mem_of_mem_lineage hBad) hWas hTree
            hEligible
          refine wpE_mono (ih hMiddle (by omega) summary) ?_
          rintro outcome after ⟨hOk, hAfter, hRest⟩
          exact ⟨hOk, hAfter, hAgain after rfl hRest⟩

/- The call returns, and what it did is a run of passes. -/
theorem activateBestChain_spec
    (hPlan : Reliable env.plan)
    (hLive : LiveState env state) :
    wpE (activateBestChain env)
      (fun outcome after =>
        (∃ summary, outcome = .ok (some summary)) ∧
          LiveState env after ∧
          Activated env state after)
      state := by
  unfold activateBestChain
  rw [wpE_get_bind]
  refine activateLoop_spec hPlan hLive ?_ _
  have hCount :
      openCount state.index.entries ≤
        state.index.entries.length :=
    List.countP_le_length
  have hProduct :
      state.index.entries.length + 2 ≤
        (state.index.entries.length + 1) *
          (state.index.entries.length + 2) :=
    Nat.le_mul_of_pos_left _ (Nat.succ_pos _)
  omega

end Amarian
