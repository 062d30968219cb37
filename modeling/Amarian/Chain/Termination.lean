import Amarian.Chain.ActiveChain

/-
  Activation ends, whatever the store holds or answers.

  A pass that does not return leaves a better tip or fewer
  blocks in the running.  The blocks in the running, and
  then the headers that beat the tip, are a measure that
  every such pass makes smaller.

  Key definitions include:
    * `Grounded`
    * `Gains`
    * `PassStart`
    * `passesLeft`

  Key theorems include:
    * `activatePass_gains`
    * `Gains.passesLeft_lt`
    * `activateBestChain_ends`
-/

------------------------------------------------------------
-- Moving The Tip Over Any Store
------------------------------------------------------------

namespace Amarian

section Frames

variable {env : ChainEnv}

/- A tip that was reverted is off, and nothing is judged. -/
theorem disconnectTip_frame
    (summary : ActivationSummary)
    (state : ChainState) :
    wpE (disconnectTip env summary)
      (fun outcome after =>
        ∀ done,
          outcome = .ok done →
            after.index = state.index ∧
              after.chain = state.chain.tail)
      state := by
  unfold disconnectTip
  rw [wpE_get_bind]
  simp only
  split
  · rintro _ ⟨⟩
  · rw [wpE_lift_bind, wp_onDb]
    split
    · rintro _ ⟨⟩
    · rw [wpE_lift_bind, wp_onDb]
      split
      · rintro _ ⟨⟩
      · rw [wpE_lift_bind]
        unfold disconnectCoins wp
        simp only
        split
        · rintro _ ⟨⟩
        · rw [wpE_lift_bind, wp_modify, wpE_lift_bind]
          refine wp_mono (commitCurrentTip_spec env _) ?_
          intro written after hTip
          rcases hTip.frame with ⟨hIndex, hChain, -⟩
          cases written with
          | false => rintro _ ⟨⟩
          | true => rintro _ ⟨⟩; exact ⟨hIndex, hChain⟩

/- A block that a rule refused is ruled out. -/
theorem refuseBlock_frame
    (entry : BlockIndexEntry)
    (error : ValidationError)
    (summary : ActivationSummary)
    (state : ChainState) :
    wpE (refuseBlock env entry error summary)
      (fun outcome after =>
        ∀ done,
          outcome = .ok done →
            done.1 = false ∧
              after.index =
                state.index.recordFailure entry.hash ∧
              after.chain = state.chain)
      state := by
  unfold refuseBlock
  rw [wpE_lift_bind]
  unfold storageFaulted
  rw [wp_bind, wp_get, wp_pure]
  split
  · rintro _ ⟨⟩
  · unfold modifyIndex
    rw [wpE_lift_bind, wp_modify, wpE_lift_bind]
    refine wp_mono (commitEntry_spec env entry.hash _) ?_
    rintro _ after hEntry _ ⟨⟩
    rcases hEntry.frame with ⟨hIndex, hChain, -⟩
    exact ⟨rfl, hIndex, hChain⟩

/- A block that was applied is the tip. -/
theorem extendChain_frame
    (hash : Hash256)
    (undo : BlockUndo)
    (summary : ActivationSummary)
    (state : ChainState) :
    wpE (extendChain env hash undo summary)
      (fun outcome after =>
        ∀ done,
          outcome = .ok done →
            done.1 = true ∧
              after.index =
                state.index.recordValidity hash .full ∧
              after.chain = hash :: state.chain)
      state := by
  unfold extendChain modifyIndex
  rw [wpE_lift_bind, wp_onDbWrite, wpE_lift_bind, wp_modify,
    wpE_lift_bind, wp_modify, wpE_lift_bind]
  refine wp_mono (commitEntry_spec env hash _) ?_
  intro _ middle hEntry
  rcases hEntry.frame with ⟨hFirst, hMiddle, -⟩
  rw [wpE_lift_bind]
  refine wp_mono (commitCurrentTip_spec env middle) ?_
  intro written after hTip
  rcases hTip.frame with ⟨hSecond, hAfter, -⟩
  cases written with
  | false => rintro _ ⟨⟩
  | true =>
      rintro _ ⟨⟩
      exact ⟨rfl, hSecond.trans hFirst, hAfter.trans hMiddle⟩

end Frames

/- What trying a block leaves, over any store. -/
inductive Attempt
    (hash : Hash256)
    (state : ChainState) : Bool → ChainState → Prop
  | applied
      {entry : BlockIndexEntry}
      {after : ChainState}
      (hFound : state.index.find hash = some entry)
      (hParent : entry.parent = some state.tip)
      (hIndex :
        after.index =
          (state.index.recordValidity hash
            .body).recordValidity hash .full)
      (hChain : after.chain = hash :: state.chain) :
      Attempt hash state true after
  | refused
      {index : BlockIndex}
      {after : ChainState}
      (hJudged :
        index = state.index ∨
          index = state.index.recordValidity hash .body)
      (hIndex : after.index = index.recordFailure hash)
      (hChain : after.chain = state.chain) :
      Attempt hash state false after

variable {env : ChainEnv} {state after : ChainState}

theorem connectTip_attempt
    (hash : Hash256)
    (summary : ActivationSummary)
    (state : ChainState) :
    wpE (connectTip env hash summary)
      (fun outcome after =>
        ∀ done,
          outcome = .ok done →
            Attempt hash state done.1 after)
      state := by
  unfold connectTip
  rw [wpE_get_bind]
  split
  case h_1 => rintro _ ⟨⟩
  case h_2 entry hFound =>
    have hHash := (IndexOk.mem_of_find hFound).2
    split
    case isTrue => rintro _ ⟨⟩
    case isFalse hFits =>
      rw [wpE_lift_bind, wp_onDb]
      split
      case h_1 => rintro _ ⟨⟩
      case h_2 block hBlock =>
        split
        case h_1 error hFails =>
          refine wpE_mono (refuseBlock_frame entry error
            summary _) ?_
          rintro _ after hFrame done rfl
          rcases hFrame done rfl with ⟨hNo, hIndex, hChain⟩
          rw [hHash] at hIndex
          rw [hNo]
          exact .refused (.inl rfl) hIndex hChain
        case h_2 hPasses =>
          unfold modifyIndex
          rw [wpE_lift_bind, wp_modify, wpE_lift_bind]
          unfold connectCoins wp
          simp only
          split
          case h_1 error hFails =>
            refine wpE_mono (refuseBlock_frame entry error
              summary _) ?_
            rintro _ after hFrame done rfl
            rcases hFrame done rfl with
              ⟨hNo, hIndex, hChain⟩
            rw [hHash] at hIndex
            rw [hNo]
            exact .refused (.inr rfl) hIndex hChain
          case h_2 applied hApplied =>
            refine wpE_mono (extendChain_frame hash
              applied.undo summary _) ?_
            rintro _ after hFrame done rfl
            rcases hFrame done rfl with
              ⟨hYes, hIndex, hChain⟩
            rw [hYes]
            exact .applied hFound (not_not.mp hFits) hIndex
              hChain

/- The walk stops somewhere along the plan. -/
theorem reachable_front
    (links : List Link)
    (state : ChainState) :
    wp (reachable env links)
      (fun path after =>
        path <+: links ∧
          ∃ db, after = { state with db })
      state := by
  induction links generalizing state with
  | nil => exact ⟨List.prefix_rfl, state.db, rfl⟩
  | cons link links ih =>
      unfold reachable
      rw [wp_bind, wp_onDb]
      split
      · rw [wp_bind]
        refine wp_mono (ih _) ?_
        rintro path after ⟨hPath, db, rfl⟩
        exact ⟨(List.prefix_cons_inj link).mpr hPath, db, rfl⟩
      · exact ⟨List.nil_prefix, _, rfl⟩

/- Every block of the plan that was reverted is off. -/
theorem disconnectAll_frame
    (links : List Link)
    (summary : ActivationSummary)
    (state : ChainState) :
    wpE (disconnectAll env links summary)
      (fun outcome after =>
        ∀ done,
          outcome = .ok done →
            after.index = state.index ∧
              after.chain =
                state.chain.drop links.length)
      state := by
  induction links generalizing state summary with
  | nil => rintro _ _; exact ⟨rfl, rfl⟩
  | cons link links ih =>
      unfold disconnectAll
      rw [wpE_get_bind]
      split
      · rintro _ ⟨⟩
      · rw [wpE_bind]
        refine wpE_mono (disconnectTip_frame summary state) ?_
        intro outcome middle hFrame
        cases outcome with
        | error failure => rintro _ ⟨⟩
        | ok done =>
            rcases hFrame done rfl with ⟨hIndex, hTail⟩
            refine wpE_mono (ih done middle) ?_
            intro outcome after hRest done hDone
            rcases hRest done hDone with ⟨hSame, hDrop⟩
            refine ⟨hSame.trans hIndex, ?_⟩
            rw [hDrop, hTail, List.drop_tail,
              List.length_cons]

------------------------------------------------------------
-- A Pass
------------------------------------------------------------

/- The tree is in order and the chain is a branch of it. -/
structure Grounded
    (env : ChainEnv)
    (state : ChainState) : Prop where
  index : IndexOk env.crypto env.params state.index
  onTree : OnTree state

/- What a pass that does not return has to show for it. -/
inductive Gains
    (before after : ChainState) : Prop
  | rose
      (hIndex : SameIndex before.index after.index)
      (hBetter :
        after.index.better after.tip before.tip = true)
  | ruledOut
      (hTree : after.index.tree = before.index.tree)
      (hFewer :
        openCount after.index.entries <
          openCount before.index.entries)

/- The way up ended at its top or at a block ruled out. -/
inductive Ascent
    (state : ChainState)
    (top : Link)
    (after : ChainState) : Prop
  | reached
      (hIndex : SameIndex state.index after.index)
      (hChain : after.chain = branch state.index.tree top.hash)
  | ruledOut
      (hTree : after.index.tree = state.index.tree)
      (hFewer :
        openCount after.index.entries <
          openCount state.index.entries)

/- Applying the child of the tip puts it on top. -/
theorem Grounded.applied
    (hGrounded : Grounded env state)
    {link : Link}
    (hLink : link ∈ state.index.tree)
    (hAttempt : Attempt link.hash state true after) :
    Grounded env after ∧
      SameIndex state.index after.index ∧
      after.chain = branch state.index.tree link.hash := by
  have hTree := hGrounded.index.tree
  rcases hGrounded.onTree with ⟨tip, hTip, hBranch⟩
  have hOn := tip_of_chain hTree hTip hBranch
  cases hAttempt with
  | @applied entry _ hFound hParent hIndex hChain =>
      have hSame : SameIndex state.index after.index := by
        rw [hIndex]
        exact (SameIndex.recordValidity _ _ _).trans
          (SameIndex.recordValidity _ _ _)
      have hOk :
          IndexOk env.crypto env.params after.index := by
        rw [hIndex]
        exact (hGrounded.index.recordValidity _ _
          ).recordValidity _ _
      rcases IndexOk.mem_of_find hFound with ⟨hMember, hHash⟩
      have hEntry := hTree.grown.key_injective hLink
        (IndexOk.link_mem hMember) hHash.symm
      have hAbove : link.parent = some tip.hash := by
        rw [hEntry, ← hOn]
        exact hParent
      have hTop :
          after.chain =
            branch state.index.tree link.hash := by
        rw [hChain, hTree.branch_step hLink hAbove, hBranch]
      refine ⟨⟨hOk, link, ?_, ?_⟩, hSame, hTop⟩
      · rw [hSame.tree]
        exact hLink
      · rw [hSame.tree]
        exact hTop

/- A block that is refused was in the running until then. -/
theorem Grounded.refused
    (hGrounded : Grounded env state)
    {link : Link}
    (hLink : link ∈ state.index.tree)
    (hEligible : state.index.eligible link.hash = true)
    (hAttempt : Attempt link.hash state false after) :
    Grounded env after ∧
      after.index.tree = state.index.tree ∧
      openCount after.index.entries <
        openCount state.index.entries := by
  cases hAttempt with
  | @refused index _ hJudged hIndex hChain =>
      have hNow :
          IndexOk env.crypto env.params index ∧
            SameIndex state.index index := by
        rcases hJudged with rfl | rfl
        · exact ⟨hGrounded.index, .refl _⟩
        · exact ⟨hGrounded.index.recordValidity _ _,
            .recordValidity _ _ _⟩
      rcases hNow with ⟨hOk, hSame⟩
      have hTree :
          after.index.tree = state.index.tree := by
        rw [hIndex, BlockIndex.recordFailure_tree hOk,
          hSame.tree]
      have hAfter :
          IndexOk env.crypto env.params after.index := by
        rw [hIndex]
        exact hOk.recordFailure link.hash
      refine ⟨⟨hAfter, hGrounded.onTree.same hTree hChain⟩,
        hTree, ?_⟩
      refine openCount_ruledOut hGrounded.index hAfter hLink
        hEligible hTree ?_
      intro hash
      rw [← hSame.eligible link.hash] at hEligible
      rw [hIndex, BlockIndex.eligible_recordFailure hOk
        hEligible, hSame.tree, hSame.eligible]

theorem connectAll_ascent
    (hGrounded : Grounded env state)
    {bottom top : Link}
    {path : List Link}
    (hChain :
      state.chain = branch state.index.tree bottom.hash)
    (hClimb : Climb state.index.tree bottom path top)
    (hEligible :
      ∀ link ∈ path,
        state.index.eligible link.hash = true)
    (summary : ActivationSummary) :
    wpE (connectAll env path summary)
      (fun outcome after =>
        ∀ done,
          outcome = .ok done →
            Grounded env after ∧ Ascent state top after)
      state := by
  induction path generalizing state bottom summary with
  | nil =>
      cases hClimb
      rintro _ -
      exact ⟨hGrounded, .reached (.refl _) hChain⟩
  | cons link path ih =>
      cases hClimb with
      | up hLink hParent hRest =>
          unfold connectAll
          rw [wpE_bind]
          refine wpE_mono (connectTip_attempt link.hash
            summary state) ?_
          intro outcome middle hTried
          cases outcome with
          | error failure => rintro _ ⟨⟩
          | ok done =>
              rcases done with ⟨applied, summary⟩
              have hAttempt := hTried _ rfl
              cases applied with
              | false =>
                  rintro _ -
                  rcases hGrounded.refused hLink
                    (hEligible link (List.mem_cons_self ..))
                    hAttempt with ⟨hNext, hTree, hFewer⟩
                  exact ⟨hNext, .ruledOut hTree hFewer⟩
              | true =>
                  rcases hGrounded.applied hLink hAttempt with
                    ⟨hNext, hSame, hTop⟩
                  rw [← hSame.tree] at hRest hTop
                  refine wpE_mono (ih hNext hTop hRest ?_
                    summary) ?_
                  · intro other hOther
                    rw [hSame.eligible]
                    exact hEligible other
                      (List.mem_cons_of_mem _ hOther)
                  · intro outcome after hEnd done hDone
                    rcases hEnd done hDone with
                      ⟨hAfter, hAscent⟩
                    refine ⟨hAfter, ?_⟩
                    cases hAscent with
                    | reached hIndex hChain =>
                        rw [hSame.tree] at hChain
                        exact .reached (hSame.trans hIndex)
                          hChain
                    | ruledOut hTree hFewer =>
                        refine .ruledOut
                          (hTree.trans hSame.tree) ?_
                        rw [hNext.index.openCount_eq,
                          hSame.tree] at hFewer
                        rw [hGrounded.index.openCount_eq]
                        simpa only [hSame.eligible] using
                          hFewer

/- The order of tips only sees the tree and who is in. -/
theorem SameIndex.better
    {before now : BlockIndex}
    (hBefore : IndexOk env.crypto env.params before)
    (hNow : IndexOk env.crypto env.params now)
    (hSame : SameIndex before now)
    {candidate incumbent : Link}
    (hCandidate : candidate ∈ before.tree)
    (hIncumbent : incumbent ∈ before.tree) :
    now.better candidate.hash incumbent.hash =
      before.better candidate.hash incumbent.hash := by
  have hThen := better_iff hBefore hCandidate hIncumbent
  rw [← hSame.tree] at hCandidate hIncumbent
  have hAfter := better_iff hNow hCandidate hIncumbent
  rw [hSame.eligible, hSame.eligible] at hAfter
  rw [Bool.eq_iff_iff, hAfter, hThen]

theorem switchTo_gains
    (hGrounded : Grounded env state)
    {tip fork target : Link}
    {plan : ChainSwitch}
    (hTip : tip ∈ state.index.tree)
    (hChain : state.chain = branch state.index.tree tip.hash)
    (hFork : fork ∈ state.index.tree)
    (hTarget : target ∈ state.index.tree)
    (hEligible : state.index.eligible target.hash = true)
    (hDown :
      ancestry state.index.tree tip.hash =
        plan.disconnect ++
          ancestry state.index.tree fork.hash)
    (hUp :
      ancestry state.index.tree target.hash =
        plan.connect.reverse ++
          ancestry state.index.tree fork.hash)
    (summary : ActivationSummary) :
    wpE (switchTo env fork plan summary)
      (fun outcome after =>
        ∀ returned summary,
          outcome = .ok (returned, summary) →
            Grounded env after ∧
              (returned = false → Gains state after))
      state := by
  have hTree := hGrounded.index.tree
  have hOn := tip_of_chain hTree hTip hChain
  have hClimb := climb_of_ancestry hTree hFork hTarget hUp
  unfold switchTo
  rw [wpE_lift_bind]
  refine wp_mono (reachable_front plan.connect state) ?_
  rintro path middle ⟨⟨rest, hPath⟩, db, rfl⟩
  rw [← hPath] at hClimb
  have hPart := hClimb.split.1
  rw [wpE_get_bind]
  simp only
  generalize hTop : path.getLast?.getD fork = top at hPart ⊢
  split
  case isTrue =>
    rintro _ _ ⟨⟩
    exact ⟨⟨hGrounded.index, hGrounded.onTree⟩, nofun⟩
  case isFalse hGain =>
    rw [Bool.not_eq_true', Bool.not_eq_false] at hGain
    rw [wpE_bind]
    refine wpE_mono (disconnectAll_frame plan.disconnect
      summary _) ?_
    intro outcome reverted hFrame
    cases outcome with
    | error failure => rintro _ _ ⟨⟩
    | ok summary =>
        rcases hFrame summary rfl with ⟨hIndex, hDrop⟩
        have hBottom :
            reverted.chain =
              branch reverted.index.tree fork.hash := by
          rw [hDrop, hIndex, hChain, branch, hDown,
            List.map_append, branch]
          exact List.drop_left' (List.length_map ..)
        have hReverted : Grounded env reverted := by
          refine ⟨?_, fork, ?_, hBottom⟩
          · rw [hIndex]
            exact hGrounded.index
          · rw [hIndex]
            exact hFork
        have hWay :
            Climb reverted.index.tree fork path top := by
          rw [hIndex]
          exact hPart
        rw [afterE, wpE_bind]
        refine wpE_mono (connectAll_ascent hReverted hBottom
          hWay ?_ summary) ?_
        · intro link hLink
          rw [hIndex]
          refine hGrounded.index.eligible_ancestor hTarget
            hEligible ?_
          rw [hUp, ← hPath, List.mem_append,
            List.mem_reverse, List.mem_append]
          exact .inl (.inl hLink)
        · intro outcome after hEnd
          cases outcome with
          | error failure => rintro _ _ ⟨⟩
          | ok summary =>
              rcases hEnd summary rfl with ⟨hAfter, hAscent⟩
              rw [afterE, wpE_get_bind, wpE_pure]
              rintro _ _ ⟨⟩
              refine ⟨hAfter, fun _ => ?_⟩
              cases hAscent with
              | reached hSame hEnd =>
                  rw [hIndex] at hSame hEnd
                  refine .rose hSame ?_
                  have hTopMem := hPart.top_mem hFork
                  rw [← hSame.tree] at hEnd
                  rw [tip_of_chain hAfter.index.tree
                    (by rw [hSame.tree]; exact hTopMem) hEnd,
                    hOn, hSame.better hGrounded.index
                    hAfter.index hTopMem hTip, ← hOn]
                  exact hGain
              | ruledOut hSame hFewer =>
                  rw [hIndex] at hSame hFewer
                  exact .ruledOut hSame hFewer

/- One pass returns, or it has something to show for it. -/
theorem activatePass_gains
    (hGrounded : Grounded env state)
    (summary : ActivationSummary) :
    wpE (activatePass env summary)
      (fun outcome after =>
        ∀ returned summary,
          outcome = .ok (returned, summary) →
            Grounded env after ∧
              (returned = false → Gains state after))
      state := by
  have hTree := hGrounded.index.tree
  rcases hGrounded.onTree with ⟨tip, hTip, hChain⟩
  have hOn := tip_of_chain hTree hTip hChain
  unfold activatePass
  rw [wpE_get_bind]
  rcases hGrounded.index.bestHeader_cases with
    ⟨hNone, -⟩ | ⟨target, hTarget, hBest, hEligible, -⟩
  · rw [hNone]
    rintro _ _ ⟨⟩
    exact ⟨hGrounded, nofun⟩
  · rw [hBest]
    simp only
    split
    case isTrue =>
      rintro _ _ ⟨⟩
      exact ⟨hGrounded, nofun⟩
    case isFalse =>
      rcases planChainSwitch_spec hTree hTip hTarget with
        ⟨fork, hFork, hPoint, hDown, hUp⟩
      unfold BlockIndex.lineage
      rw [hOn, hPoint]
      simp only
      split
      case isTrue => rintro _ _ ⟨⟩
      case isFalse =>
        exact switchTo_gains hGrounded hTip hChain hFork
          hTarget hEligible hDown hUp summary

------------------------------------------------------------
-- The Measure
------------------------------------------------------------

/- How many headers beat the tip. -/
def rivals
    (state : ChainState) : Nat :=
  state.index.tree.countP fun link =>
    state.index.better link.hash state.tip

/- First the blocks in the running, then what beats the tip. -/
def passesLeft
    (state : ChainState) : Nat :=
  openCount state.index.entries *
      (state.index.entries.length + 1) +
    rivals state

theorem rivals_le
    (state : ChainState) :
    rivals state ≤ state.index.entries.length := by
  rw [← List.length_map (f := BlockIndexEntry.toLink)]
  exact List.countP_le_length

/- What beats the new tip beat the old one. -/
theorem rivals_lt
    (hBefore : Grounded env state)
    (hAfter : Grounded env after)
    (hSame : SameIndex state.index after.index)
    (hBetter :
      after.index.better after.tip state.tip = true) :
    rivals after < rivals state := by
  rcases hBefore.onTree with ⟨old, hOld, hOldChain⟩
  rcases hAfter.onTree with ⟨new, hNew, hNewChain⟩
  have hOldTip :=
    tip_of_chain hBefore.index.tree hOld hOldChain
  have hNewTip :=
    tip_of_chain hAfter.index.tree hNew hNewChain
  have hOldNow := hOld
  rw [← hSame.tree] at hOldNow
  have hOrder := @better_iff env after.index hAfter.index
  rw [hNewTip, hOldTip] at hBetter
  unfold rivals
  rw [hNewTip, hOldTip]
  have hSwitch :
      (state.index.tree.countP fun link =>
          state.index.better link.hash old.hash) =
        after.index.tree.countP fun link =>
          after.index.better link.hash old.hash := by
    rw [hSame.tree]
    refine List.countP_congr fun link hLink => ?_
    rw [hSame.better hBefore.index hAfter.index hLink hOld]
  rw [hSwitch]
  rcases (hOrder hNew hOldNow).mp hBetter with
    ⟨hIn, hBeats⟩
  refine countP_lt_of_mem hNew ?_
    (better_self hAfter.index hNew) hBetter
  intro link hLink hAbove
  rcases (hOrder hLink hNew).mp hAbove with
    ⟨hEligible, hTops⟩
  refine (hOrder hLink hOldNow).mpr ⟨hEligible, ?_⟩
  intro hStill
  exact Link.outranks_trans (hTops hIn) (hBeats hStill)

/- Every pass that does not return makes less of it. -/
theorem Gains.passesLeft_lt
    (hBefore : Grounded env state)
    (hAfter : Grounded env after)
    (hGains : Gains state after) :
    passesLeft after < passesLeft state := by
  have hLength :
      ∀ {index : BlockIndex},
        index.tree.length = index.entries.length :=
    List.length_map ..
  unfold passesLeft
  cases hGains with
  | rose hSame hBetter =>
      have hOpen :
          openCount after.index.entries =
            openCount state.index.entries := by
        rw [hBefore.index.openCount_eq,
          hAfter.index.openCount_eq, hSame.tree]
        simp only [hSame.eligible]
      have hEntries :
          after.index.entries.length =
            state.index.entries.length := by
        rw [← hLength, hSame.tree, hLength]
      rw [hOpen, hEntries]
      have hFewer := rivals_lt hBefore hAfter hSame hBetter
      exact Nat.add_lt_add_left hFewer _
  | ruledOut hTree hFewer =>
      have hEntries :
          after.index.entries.length =
            state.index.entries.length := by
        rw [← hLength, hTree, hLength]
      have hRivals := rivals_le after
      rw [hEntries] at hRivals ⊢
      have hDrop := Nat.mul_le_mul_right
        (state.index.entries.length + 1)
        (Nat.succ_le_of_lt hFewer)
      rw [Nat.succ_mul] at hDrop
      omega

theorem passesLeft_lt
    (state : ChainState) :
    passesLeft state <
      (state.index.entries.length + 1) *
        (state.index.entries.length + 2) := by
  have hOpen :
      openCount state.index.entries ≤
        state.index.entries.length :=
    List.countP_le_length
  have hRivals := rivals_le state
  have hProduct := Nat.mul_le_mul_right
    (state.index.entries.length + 1) hOpen
  unfold passesLeft
  generalize state.index.entries.length = entries at *
  rw [Nat.mul_comm (entries + 1), Nat.add_mul entries 2]
  omega

------------------------------------------------------------
-- Whole Calls
------------------------------------------------------------

/- More passes than are left are enough for a call. -/
theorem activateLoop_ends
    (hGrounded : Grounded env state)
    {fuel : Nat}
    (hFuel : passesLeft state < fuel)
    (summary : ActivationSummary) :
    wpE (activateLoop env fuel summary)
      (fun outcome _ => outcome ≠ .ok none)
      state := by
  induction fuel generalizing state summary with
  | zero => omega
  | succ fuel ih =>
      unfold activateLoop
      rw [wpE_bind]
      refine wpE_mono (activatePass_gains hGrounded summary) ?_
      intro outcome middle hPass
      cases outcome with
      | error failure =>
          intro hNone
          cases hNone
      | ok done =>
          rcases done with ⟨returned, summary⟩
          rcases hPass returned summary rfl with
            ⟨hMiddle, hGains⟩
          cases returned with
          | true =>
              intro hNone
              cases hNone
          | false =>
              have hFewer :=
                (hGains rfl).passesLeft_lt hGrounded hMiddle
              exact ih hMiddle (by omega) summary

/- The states in which the passes of a call begin. -/
inductive PassStart
    (env : ChainEnv)
    (start : ChainState) : ChainState → Prop
  | first :
      PassStart env start start
  | next
      {state after : ChainState}
      {summary later : ActivationSummary}
      (hStart : PassStart env start state)
      (hPass :
        (activatePass env summary).run state =
          (.ok (false, later), after)) :
      PassStart env start after

theorem PassStart.grounded
    {start : ChainState}
    (hGrounded : Grounded env start)
    (hStart : PassStart env start state) :
    Grounded env state := by
  induction hStart with
  | first => exact hGrounded
  | @next state after summary later hStart hPass ih =>
      have hGains := activatePass_gains ih summary
      unfold wpE wp at hGains
      rw [hPass] at hGains
      exact (hGains false later rfl).1

/- The call returns with the pass, or the pass got somewhere. -/
def PassEnds
    (before : ChainState)
    (outcome :
      Except ActivationFailure (Bool × ActivationSummary))
    (after : ChainState) : Prop :=
  match outcome with
  | .error _ => True
  | .ok (true, _) => True
  | .ok (false, _) =>
      after.index.better after.tip before.tip = true ∨
        openCount after.index.entries <
          openCount before.index.entries

/-
  The store and the coins are any at all, and so is what
  each operation on the store answers.
-/
theorem activateBestChain_ends
    (env : ChainEnv)
    (calls : List Call)
    (db : ChainDb)
    (coins : CoinsCache) :
    let start := { run env calls with db, coins }
    (∀ state summary,
        PassStart env start state →
          PassEnds state
            ((activatePass env summary).run state).1
            ((activatePass env summary).run state).2) ∧
      ((activateBestChain env).run start).1 ≠ .ok none := by
  intro start
  have hRooted := Rooted.run env calls
  have hGrounded : Grounded env start :=
    ⟨hRooted.sourced.index, hRooted.onTree⟩
  refine ⟨?_, ?_⟩
  · intro state summary hStart
    have hPass := activatePass_gains
      (hStart.grounded hGrounded) summary
    unfold wpE wp at hPass
    generalize (activatePass env summary).run state = done
      at hPass ⊢
    rcases done with ⟨⟨failure⟩ | ⟨returned, later⟩, after⟩
    · trivial
    · cases returned with
      | true => trivial
      | false =>
          cases (hPass false later rfl).2 rfl with
          | rose hSame hBetter => exact .inl hBetter
          | ruledOut hTree hFewer => exact .inr hFewer
  · have hEnds :
        wpE (activateBestChain env)
          (fun outcome _ => outcome ≠ .ok none) start := by
      unfold activateBestChain
      rw [wpE_get_bind]
      exact activateLoop_ends hGrounded
        (passesLeft_lt start) _
    exact hEnds

end Amarian
