import Amarian.Chain.Invariant

/-
  Where an activation ends up.

  The loop works from the best header alone.  After a block
  of its branch failed, it works from the next header in
  line, and it stops where that one's bodies stop, whatever
  lies complete elsewhere.

  Key definitions include:
    * `Stumbles`
    * `NextInLine`
    * `TipAhead`
    * `BestConnectable`

  Key theorems include:
    * `tip_not_worse_run`
    * `bestConnectable_run`
-/

------------------------------------------------------------
-- The Order On A Tree
------------------------------------------------------------

namespace Amarian

section Ahead

variable {env : ChainEnv} {start state after : ChainState}

/- At least as good, as blocks in the running compare. -/
def Link.atLeast
    (first second : Link) : Prop :=
  first = second ∨ first.outranks second

theorem Link.atLeast_trans
    {first second third : Link}
    (hFirst : first.atLeast second)
    (hSecond : second.atLeast third) :
    first.atLeast third := by
  rcases hFirst with rfl | hFirst
  · exact hSecond
  · rcases hSecond with rfl | hSecond
    · exact Or.inr hFirst
    · exact Or.inr (Link.outranks_trans hFirst hSecond)

theorem atLeast_of_not_better
    {index : BlockIndex}
    (hIndex : IndexOk env.crypto env.params index)
    {candidate incumbent : Link}
    (hCandidate : candidate ∈ index.tree)
    (hIncumbent : incumbent ∈ index.tree)
    (hEligible : index.eligible candidate.hash = true)
    (hNot :
      index.better candidate.hash incumbent.hash = false) :
    index.eligible incumbent.hash = true ∧
      incumbent.atLeast candidate := by
  rw [← Bool.not_eq_true,
    better_iff hIndex hCandidate hIncumbent] at hNot
  constructor
  · by_contra hOut
    exact hNot ⟨hEligible, fun hIn => absurd hIn hOut⟩
  · by_cases hSame : incumbent = candidate
    · exact Or.inl hSame
    · right
      have hSequence :
          incumbent.sequence ≠ candidate.sequence := by
        intro hSequence
        apply hSame
        exact hIndex.tree.sequence_injective hIncumbent
          hCandidate hSequence
      rcases Link.outranks_total hSequence with
        hBeats | hLoses
      · exact hBeats
      · exact absurd ⟨hEligible, fun _ => hLoses⟩ hNot

theorem not_better_of_atLeast
    {index : BlockIndex}
    (hIndex : IndexOk env.crypto env.params index)
    {candidate incumbent : Link}
    (hCandidate : candidate ∈ index.tree)
    (hIncumbent : incumbent ∈ index.tree)
    (hEligible : index.eligible incumbent.hash = true)
    (hLeast : incumbent.atLeast candidate) :
    index.better candidate.hash incumbent.hash = false := by
  rw [← Bool.not_eq_true,
    better_iff hIndex hCandidate hIncumbent]
  rintro ⟨-, hOutranks⟩
  have hBeats := hOutranks hEligible
  rcases hLeast with rfl | hLeast
  · exact Link.outranks_irrefl _ hBeats
  · exact Link.outranks_asymm hBeats hLeast

------------------------------------------------------------
-- Complete And Connecting Branches
------------------------------------------------------------

section Branches

variable {c : Crypto} {params : ChainParams}
variable {tree : List Link}
variable {blocks : Hash256 → Option Block}

theorem complete_ancestor
    (hTree : TreeOk c params tree)
    {link ancestor : Link}
    (hLink : link ∈ tree)
    (hComplete : complete tree blocks link.hash = true)
    (hAncestor : ancestor ∈ ancestry tree link.hash) :
    complete tree blocks ancestor.hash = true := by
  rw [complete, List.all_eq_true] at hComplete ⊢
  intro below hBelow
  exact hComplete below (hTree.grown.mem_lineage_trans
    hLink hAncestor hBelow)

theorem complete_of_attain
    {target : Hash256}
    {top : Link}
    (hAttain : attain tree blocks target = some top) :
    complete tree blocks top.hash = true :=
  List.find?_some
    (p := fun link : Link =>
      complete tree blocks link.hash)
    hAttain

/- What is complete is within what can be attained. -/
theorem attain_above
    (hTree : TreeOk c params tree)
    {link ancestor : Link}
    (hLink : link ∈ tree)
    (hAncestor : ancestor ∈ ancestry tree link.hash)
    (hComplete : complete tree blocks ancestor.hash = true) :
    ∃ top,
      attain tree blocks link.hash = some top ∧
        ancestor ∈ ancestry tree top.hash := by
  revert hAncestor
  refine hTree.grown.ancestor_induction
    (motive := fun link =>
      ancestor ∈ ancestry tree link.hash →
        ∃ top,
          attain tree blocks link.hash = some top ∧
            ancestor ∈ ancestry tree top.hash)
    ?_ ?_ link hLink
  · intro root hRoot hNone hAncestor
    have hLine := hTree.grown.lineage_root hRoot hNone
    have hSame := hAncestor
    rw [ancestry, hLine, List.mem_singleton] at hSame
    subst hSame
    refine ⟨ancestor, ?_, hAncestor⟩
    rw [attain, ancestry, hLine, List.find?_cons, hComplete]
  · intro link hLink above hAbove hParent ih hAncestor
    have hLine := hTree.grown.lineage_step hLink hParent
    by_cases hHere : complete tree blocks link.hash = true
    · refine ⟨link, ?_, hAncestor⟩
      rw [attain, ancestry, hLine, List.find?_cons, hHere]
    · rw [ancestry, hLine, List.mem_cons] at hAncestor
      rcases hAncestor with rfl | hAncestor
      · exact absurd hComplete hHere
      · rcases ih hAncestor with ⟨top, hTop, hOn⟩
        refine ⟨top, ?_, hOn⟩
        rw [attain, ancestry, hLine, List.find?_cons]
        simp only [hHere]
        exact hTop

end Branches

/- Genesis connects on nothing. -/
theorem Connects.root
    (hTree :
      TreeOk env.crypto env.params state.index.tree)
    {link : Link}
    (hLink : link ∈ state.index.tree)
    (hRoot : link.parent = none) :
    Connects env state link.hash := by
  refine ⟨Utxo.empty, ?_⟩
  rw [hTree.branch_root hLink hRoot]
  rfl

/- Below a block that connects all connect. -/
theorem Connects.ancestor
    (hTree :
      TreeOk env.crypto env.params state.index.tree)
    {link ancestor : Link}
    (hLink : link ∈ state.index.tree)
    (hConnects : Connects env state link.hash)
    (hAncestor :
      ancestor ∈ ancestry state.index.tree link.hash) :
    Connects env state ancestor.hash := by
  revert hConnects hAncestor
  refine hTree.grown.ancestor_induction
    (motive := fun link =>
      Connects env state link.hash →
        ancestor ∈ ancestry state.index.tree link.hash →
          Connects env state ancestor.hash)
    ?_ ?_ link hLink
  · intro root hRoot hNone hConnects hAncestor
    rw [ancestry, hTree.grown.lineage_root hRoot hNone,
      List.mem_singleton] at hAncestor
    rw [hAncestor]
    exact hConnects
  · intro link hLink above hAbove hParent ih hConnects
      hAncestor
    rw [ancestry, hTree.grown.lineage_step hLink hParent,
      List.mem_cons] at hAncestor
    rcases hAncestor with rfl | hAncestor
    · exact hConnects
    · rcases hConnects with ⟨coins, hReplay⟩
      rcases hTree.exists_branch_eq_cons hAbove with
        ⟨below, hCons⟩
      rw [hTree.branch_step hLink hParent, hCons] at hReplay
      rcases replay_cons.mp hReplay with
        ⟨before, -, -, hBefore, -⟩
      rw [← hCons] at hBefore
      exact ih ⟨before, hBefore⟩ hAncestor

------------------------------------------------------------
-- Headers In Line
------------------------------------------------------------

/- Where applying what is stored of a branch would stop. -/
def Stumbles
    (env : ChainEnv)
    (state : ChainState)
    (target : Hash256)
    (bad : Link) : Prop :=
  (∃ top,
    attain state.index.tree state.db.records.blocks
        target = some top ∧
      bad ∈ ancestry state.index.tree top.hash) ∧
    (∃ parent,
      bad.parent = some parent ∧
        Connects env state parent) ∧
    ¬Connects env state bad.hash

/-
  The best header, or one that is the best after those that
  beat it stumbled over blocks it does not stand on.
-/
def NextInLine
    (env : ChainEnv)
    (state : ChainState)
    (link : Link) : Prop :=
  state.index.eligible link.hash = true ∧
    ∀ other ∈ state.index.tree,
      state.index.eligible other.hash = true →
        other.outranks link →
          ∃ bad,
            Stumbles env state other.hash bad ∧
              bad ∉ ancestry state.index.tree link.hash

/- What the passes of a call so far have left. -/
structure Passed
    (env : ChainEnv)
    (start state : ChainState) : Prop where
  tree : state.index.tree = start.index.tree
  blocks :
    state.db.records.blocks = start.db.records.blocks
  eligible :
    ∀ hash, state.index.eligible hash = true →
      start.index.eligible hash = true
  ruled :
    ∀ link ∈ start.index.tree,
      start.index.eligible link.hash = true →
        state.index.eligible link.hash = false →
          ∃ bad,
            Stumbles env start link.hash bad ∧
              state.index.eligible bad.hash = false

namespace Passed

theorem refl
    (env : ChainEnv)
    (start : ChainState) :
    Passed env start start where
  tree := rfl
  blocks := rfl
  eligible := fun _ hEligible => hEligible
  ruled := by
    intro link _ hEligible hNot
    rw [hEligible] at hNot
    cases hNot

theorem connects_iff
    (hPassed : Passed env start state)
    (hash : Hash256) :
    Connects env state hash ↔ Connects env start hash :=
  Connects.congr env hPassed.blocks hPassed.tree hash

/- One more pass that does not return. -/
theorem pass
    (hIndex : IndexOk env.crypto env.params state.index)
    (hPassed : Passed env start state)
    (hPass : PassStep env state false after)
    (hBlocks :
      after.db.records.blocks = state.db.records.blocks) :
    Passed env start after := by
  have hTreeOk := hIndex.tree
  cases hPass with
  | advanced hHeading hSame hChain =>
      refine ⟨hSame.tree.trans hPassed.tree,
        hBlocks.trans hPassed.blocks, ?_, ?_⟩
      · intro hash hEligible
        rw [hSame.eligible] at hEligible
        exact hPassed.eligible hash hEligible
      · intro link hLink hEligible hNot
        rw [hSame.eligible] at hNot
        rcases hPassed.ruled link hLink hEligible hNot with
          ⟨bad, hBad, hOut⟩
        exact ⟨bad, hBad, by rw [hSame.eligible]; exact hOut⟩
  | @ruledOut target top bad parent after hHeading hBad
      hAbove hConnects hFails hTree hEligible hChain =>
      refine ⟨hTree.trans hPassed.tree,
        hBlocks.trans hPassed.blocks, ?_, ?_⟩
      · intro hash hIn
        rw [hEligible, Bool.and_eq_true] at hIn
        exact hPassed.eligible hash hIn.1
      · intro link hLink hIn hNot
        rw [hEligible, Bool.and_eq_false_iff,
          Bool.not_eq_false'] at hNot
        rcases hNot with hNot | hDescends
        · rcases hPassed.ruled link hLink hIn hNot with
            ⟨other, hOther, hOut⟩
          refine ⟨other, hOther, ?_⟩
          rw [hEligible, hOut, Bool.false_and]
        · have hTop := hHeading.top_mem
          have hComplete := complete_ancestor hTreeOk hTop
            (complete_of_attain hHeading.attain) hBad
          have hBadMem := Arrival.mem_of_mem_lineage hBad
          rw [descendsFrom, decide_eq_true_eq, List.mem_map]
            at hDescends
          rcases hDescends with ⟨below, hBelow, hHash⟩
          have hSame := hTreeOk.grown.key_injective
            (Arrival.mem_of_mem_lineage hBelow) hBadMem hHash
          subst hSame
          rw [← hPassed.tree] at hLink
          rcases attain_above hTreeOk hLink hBelow
            hComplete with ⟨reached, hReached, hOn⟩
          rw [hPassed.tree, hPassed.blocks] at hReached
          rw [hPassed.tree] at hOn
          refine ⟨below, ⟨⟨reached, hReached, hOn⟩,
            ⟨parent.hash, hAbove, ?_⟩, ?_⟩, ?_⟩
          · exact (hPassed.connects_iff _).mp hConnects
          · exact fun hOk => hFails
              ((hPassed.connects_iff _).mpr hOk)
          · rw [hEligible, descendsFrom]
            simp only [Bool.and_eq_false_iff,
              Bool.not_eq_false', decide_eq_true_eq]
            exact Or.inr (List.mem_map_of_mem
              (hTreeOk.grown.self_mem_lineage hBadMem))

/- What connects is never ruled out on the way. -/
theorem eligible_of_connects
    (hTree :
      TreeOk env.crypto env.params start.index.tree)
    (hPassed : Passed env start state)
    {link : Link}
    (hLink : link ∈ start.index.tree)
    (hEligible : start.index.eligible link.hash = true)
    (hConnects : Connects env start link.hash) :
    state.index.eligible link.hash = true := by
  by_contra hNot
  rw [Bool.not_eq_true] at hNot
  rcases hPassed.ruled link hLink hEligible hNot with
    ⟨bad, ⟨⟨top, hTop, hBad⟩, -, hFails⟩, -⟩
  apply hFails
  refine hConnects.ancestor hTree hLink ?_
  exact hTree.grown.mem_lineage_trans hLink
    (attain_mem hTop) hBad

/- The best header left was next in line from the start. -/
theorem nextInLine
    (hIndex : IndexOk env.crypto env.params state.index)
    (hPassed : Passed env start state)
    {best : Link}
    (hBest : best ∈ state.index.tree)
    (hEligible : state.index.eligible best.hash = true)
    (hAll :
      ∀ link ∈ state.index.tree,
        state.index.eligible link.hash = true →
          best.atLeast link) :
    NextInLine env start best := by
  refine ⟨hPassed.eligible _ hEligible, ?_⟩
  intro other hOther hIn hOutranks
  have hNot : state.index.eligible other.hash = false := by
    rw [← Bool.not_eq_true]
    intro hStill
    rw [← hPassed.tree] at hOther
    rcases hAll other hOther hStill with rfl | hBeats
    · exact Link.outranks_irrefl _ hOutranks
    · exact Link.outranks_asymm hOutranks hBeats
  rcases hPassed.ruled other hOther hIn hNot with
    ⟨bad, hBad, hOut⟩
  refine ⟨bad, hBad, ?_⟩
  intro hOn
  rw [← hPassed.tree] at hOn
  rw [hIndex.eligible_ancestor hBest hEligible hOn] at hOut
  cases hOut

end Passed

------------------------------------------------------------
-- The End Of A Call
------------------------------------------------------------

/- The header that the last pass worked from. -/
inductive Ended
    (env : ChainEnv)
    (start after : ChainState) : Prop
  | nothing
      (hAll :
        ∀ hash, after.index.eligible hash = false)
  | stood
      {best top tip : Link}
      (hTip : tip ∈ after.index.tree)
      (hHash : tip.hash = after.tip)
      (hEligible : after.index.eligible tip.hash = true)
      (hBest : best ∈ after.index.tree)
      (hLine : NextInLine env start best)
      (hAll :
        ∀ link ∈ after.index.tree,
          after.index.eligible link.hash = true →
            best.atLeast link)
      (hAttain :
        attain start.index.tree start.db.records.blocks
          best.hash = some top)
      (hLeast : tip.atLeast top)

theorem Settled.ended
    (hLive : LiveState env state)
    (hPlan : Reliable env.plan)
    (hPassed : Passed env start state)
    (hSettled : Settled state)
    (hIndex : after.index = state.index)
    (hChain : after.chain = state.chain) :
    Ended env start after := by
  have hOk := hLive.sound.ok.index
  rcases hLive.exists_tip with ⟨tip, hTip, hHash, hBranch⟩
  have hSame : tip.hash = after.tip := by
    rw [hHash, ChainState.tip, ChainState.tip, hChain, hIndex]
  rcases hOk.bestHeader_cases with
    ⟨-, hAll⟩ | ⟨best, hBest, hHeader, hIn, hAll⟩
  · refine .nothing ?_
    rw [hIndex]
    exact hAll
  have hBeats :
      ∀ link ∈ state.index.tree,
        state.index.eligible link.hash = true →
          best.atLeast link := by
    intro link hLink hEligible
    exact (hAll link hLink hEligible).imp_left Eq.symm
  have hLine := hPassed.nextInLine hOk hBest hIn hBeats
  have hStood :
      ∀ {top : Link},
        attain state.index.tree state.db.records.blocks
            best.hash = some top →
          state.index.eligible tip.hash = true →
            tip.atLeast top → Ended env start after := by
    intro top hAttain hEligible hLeast
    rw [hPassed.tree, hPassed.blocks] at hAttain
    rw [← hIndex] at hTip hEligible hBest hBeats
    exact .stood hTip hSame hEligible hBest hLine hBeats
      hAttain hLeast
  cases hSettled with
  | nothing hNone =>
      rw [hHeader] at hNone
      cases hNone
  | atBest hAt =>
      rw [hHeader, Option.some_inj, ← hHash] at hAt
      have hEq := hOk.tree.grown.key_injective hBest hTip hAt
      subst hEq
      have hComplete := complete_of_replay hOk.tree hBest
        (hLive.connects_tip hPlan hHash).choose_spec
      rcases attain_above hOk.tree hBest
        (hOk.tree.grown.self_mem_lineage hBest) hComplete with
        ⟨top, hTop, -⟩
      refine hStood hTop hIn (hBeats top ?_ ?_)
      · exact Arrival.mem_of_mem_lineage (attain_mem hTop)
      · exact hOk.eligible_ancestor hBest hIn
          (attain_mem hTop)
  | @noGain target top hAt hAttain hBetter =>
      rw [hHeader, Option.some_inj] at hAt
      subst hAt
      rw [← hHash] at hBetter
      have hMember := attain_mem hAttain
      rcases atLeast_of_not_better hOk
        (Arrival.mem_of_mem_lineage hMember) hTip
        (hOk.eligible_ancestor hBest hIn hMember)
        hBetter with ⟨hEligible, hLeast⟩
      exact hStood hAttain hEligible hLeast

/- Either nothing moved, or the passes ended somewhere. -/
theorem Activated.ended
    (hPlan : Reliable env.plan)
    (hLive : LiveState env state)
    (hPassed : Passed env start state)
    (hActivated : Activated env state after) :
    Ended env start after ∧ Passed env start after := by
  induction hActivated with
  | returned hPass hBlocks =>
      cases hPass with
      | settled hSettled hIndex hChain =>
          refine ⟨hSettled.ended hLive hPlan hPassed hIndex
            hChain, ?_⟩
          exact ⟨by rw [hIndex]; exact hPassed.tree,
            hBlocks.trans hPassed.blocks,
            by rw [hIndex]; exact hPassed.eligible,
            by rw [hIndex]; exact hPassed.ruled⟩
  | again hPass hMiddle hBlocks hRest ih =>
      exact ih hMiddle
        (hPassed.pass hLive.sound.ok.index hPass hBlocks)

/- A call that has nowhere better to go changes nothing. -/
theorem Activated.unmoved
    (hStay :
      ∀ target top, ¬Heading state target top)
    (hActivated : Activated env state after) :
    after.index = state.index ∧
      after.chain = state.chain := by
  cases hActivated with
  | returned hPass hBlocks =>
      cases hPass with
      | settled hSettled hIndex hChain =>
          exact ⟨hIndex, hChain⟩
  | again hPass hMiddle hBlocks hRest =>
      cases hPass with
      | advanced hHeading =>
          exact absurd hHeading (hStay _ _)
      | ruledOut hHeading =>
          exact absurd hHeading (hStay _ _)

------------------------------------------------------------
-- Whether The Tip Falls
------------------------------------------------------------

/- The call has nowhere to go that is better than the tip. -/
def Unmoved
    (state : ChainState) : Prop :=
  ∀ target top,
    state.index.bestHeader = some target →
      attain state.index.tree state.db.records.blocks
          target = some top →
        state.index.better top.hash state.tip = false

theorem Unmoved.not_heading
    (hUnmoved : Unmoved state)
    (target : Hash256)
    (top : Link) :
    ¬Heading state target top := by
  rintro ⟨hBest, hAttain, hBetter⟩
  rw [hUnmoved target top hBest hAttain] at hBetter
  cases hBetter

/-
  Before an activation: what is stored of the branches next
  in line is nowhere worse than the tip.
-/
def TipAhead
    (env : ChainEnv)
    (state : ChainState) : Call → Prop
  | .activateBestChain =>
      Unmoved state ∨
        ∀ link ∈ state.index.tree,
          NextInLine env state link →
            ∀ top,
              attain state.index.tree
                  state.db.records.blocks
                  link.hash = some top →
                state.index.better state.tip top.hash =
                  false
  | _ => True

/- The tip after an activation is as good as the one before. -/
def TipNotWorse
    (env : ChainEnv)
    (state : ChainState) : Call → Prop
  | .activateBestChain =>
      state.index.eligible state.tip = true →
        let after := step env state .activateBestChain
        after.tip = state.tip ∨
          after.index.better after.tip state.tip = true
  | _ => True

theorem LiveState.tipNotWorse
    (hPlan : Reliable env.plan)
    (hLive : LiveState env state)
    (hAfter : LiveState env after)
    (hActivated : Activated env state after)
    (hAhead : TipAhead env state .activateBestChain)
    (hEligible : state.index.eligible state.tip = true) :
    after.tip = state.tip ∨
      after.index.better after.tip state.tip = true := by
  rcases hAhead with hUnmoved | hAhead
  · left
    rcases hActivated.unmoved hUnmoved.not_heading with
      ⟨hIndex, hChain⟩
    rw [ChainState.tip, ChainState.tip, hChain, hIndex]
  have hOk := hLive.sound.ok.index
  rcases hLive.exists_tip with ⟨old, hOld, hOldHash, -⟩
  rw [← hOldHash] at hEligible hAhead ⊢
  rcases hActivated.ended hPlan hLive (.refl env state) with
    ⟨hEnded, hPassed⟩
  have hStill := hPassed.eligible_of_connects hOk.tree hOld
    hEligible (hLive.connects_tip hPlan hOldHash)
  cases hEnded with
  | nothing hAll =>
      rw [hAll] at hStill
      cases hStill
  | @stood best top tip hTip hHash hIn hBest hLine hAll
      hAttain hLeast =>
      rw [hPassed.tree] at hBest
      have hMember := attain_mem hAttain
      have hNot := hAhead best hBest hLine top hAttain
      rcases atLeast_of_not_better hOk hOld
        (Arrival.mem_of_mem_lineage hMember) hEligible
        hNot with ⟨-, hTop⟩
      have hBoth := Link.atLeast_trans hLeast hTop
      rw [← hHash]
      rcases hBoth with rfl | hOutranks
      · exact Or.inl rfl
      · right
        rw [← hPassed.tree] at hOld
        exact (better_iff hAfter.sound.ok.index hTip
          hOld).mpr ⟨hIn, fun _ => hOutranks⟩

/- The call as a step of a run. -/
theorem LiveState.activated
    (hPlan : Reliable env.plan)
    (hLive : LiveState env state) :
    let start :=
      { state with moments := [⟨state.db, state.index⟩] }
    let after := Amarian.step env state .activateBestChain
    LiveState env start ∧
      LiveState env after ∧ Activated env start after := by
  intro start after
  have hStart : LiveState env start := hLive.reset _
  exact ⟨hStart, (activateBestChain_spec hPlan hStart).2⟩

/-
  In a run whose activations all start with the tip ahead of
  what is next in line, none of them leaves a worse tip.
-/
theorem tip_not_worse_run
    (env : ChainEnv)
    (hPlan : Reliable env.plan)
    (calls : List Call)
    (hAhead :
      EveryStep env (TipAhead env)
        (.fresh env.crypto env.params) calls) :
    EveryStep env (TipNotWorse env)
      (.fresh env.crypto env.params) calls := by
  refine hAhead.imp
    (fun state call (hLive : LiveState env state) =>
      hLive.step hPlan call)
    ?_ (LiveState.fresh env)
  intro state call hLive hAhead
  cases call with
  | acceptHeader header now => trivial
  | acceptBlock block now => trivial
  | activateBestChain =>
      rcases hLive.activated hPlan with
        ⟨hStart, hAfter, hActivated⟩
      have hDone := hStart.tipNotWorse hPlan hAfter
        hActivated hAhead
      exact hDone

end Ahead

namespace Sample

/- The bodies of the heavier branch are not sent. -/
def withheld : List Call :=
  [.acceptBlock a1 genesisTimestamp, .activateBestChain,
    .acceptHeader c1.header genesisTimestamp,
    .acceptHeader c2.header genesisTimestamp,
    .activateBestChain]

/- The next best branch fails before theirs is tried. -/
def withheldBehindInvalid : List Call :=
  [.acceptBlock a1 genesisTimestamp, .activateBestChain,
    .acceptBlock b1 genesisTimestamp,
    .acceptBlock b2 genesisTimestamp,
    .acceptHeader c1.header genesisTimestamp,
    .acceptHeader c2.header genesisTimestamp]

/- Where the attainable part of every branch can be listed. -/
theorem tipAhead_of_attain
    {state : ChainState}
    (hAll :
      ∀ link ∈ state.index.tree,
        ((attain state.index.tree state.db.records.blocks
          link.hash).all fun top =>
            !state.index.better state.tip top.hash) =
          true) :
    TipAhead env state .activateBestChain := by
  right
  intro link hLink _ top hAttain
  have hNot := hAll link hLink
  rw [hAttain] at hNot
  simpa using hNot

theorem tipAhead_of_bestHeader
    {state : ChainState}
    (hBest :
      ((state.index.bestHeader.bind
        (attain state.index.tree
          state.db.records.blocks)).all fun top =>
            !state.index.better top.hash state.tip) =
        true) :
    TipAhead env state .activateBestChain := by
  left
  intro target top hTarget hAttain
  rw [hTarget, Option.bind_some, hAttain] at hBest
  simpa using hBest

theorem tip_not_worse_withheld :
    EveryStep env (TipNotWorse env)
      (.fresh env.crypto env.params) withheld := by
  refine tip_not_worse_run env (fun _ _ => rfl) withheld ?_
  refine ⟨trivial, tipAhead_of_attain ?_, trivial, trivial,
    tipAhead_of_bestHeader ?_, trivial⟩
  · rw [env_eq]
    decide +kernel
  · rw [env_eq]
    decide +kernel

/- The tip was in the running and is worse afterwards. -/
theorem tip_falls_behind :
    (run env withheldBehindInvalid).index.eligible
        (run env withheldBehindInvalid).tip = true ∧
      (step env (run env withheldBehindInvalid)
          .activateBestChain).tip ≠
        (run env withheldBehindInvalid).tip ∧
      (step env (run env withheldBehindInvalid)
        .activateBestChain).index.better
        (step env (run env withheldBehindInvalid)
          .activateBestChain).tip
        (run env withheldBehindInvalid).tip = false := by
  rw [env_eq]
  decide +kernel

end Sample

------------------------------------------------------------
-- Whether The Tip Is The Best
------------------------------------------------------------

section Best

variable {env : ChainEnv} {state after : ChainState}

/-
  The tip is in the running and nothing in the running with
  all its bodies stored is better.
-/
structure BestConnectable
    (state : ChainState) : Prop where
  eligible : state.index.eligible state.tip = true
  complete :
    complete state.index.tree state.db.records.blocks
      state.tip = true
  best :
    ∀ link ∈ state.index.tree,
      state.index.eligible link.hash = true →
        Amarian.complete state.index.tree
            state.db.records.blocks link.hash = true →
          state.index.better link.hash state.tip = false

/-
  Before an activation: genesis is in the running, and the
  tip is the best already, or what is stored of each branch
  next in line is as good as anything complete that this
  branch beats.
-/
def LineComplete
    (env : ChainEnv)
    (state : ChainState) : Call → Prop
  | .activateBestChain =>
      state.index.eligible state.index.genesis = true ∧
        ((∀ link ∈ state.index.tree,
          state.index.eligible link.hash = true →
            complete state.index.tree
                state.db.records.blocks link.hash = true →
              state.index.better link.hash state.tip =
                false) ∨
          ∀ link ∈ state.index.tree,
            NextInLine env state link →
              ∀ top other,
                attain state.index.tree
                    state.db.records.blocks
                    link.hash = some top →
                  other ∈ state.index.tree →
                  state.index.eligible other.hash = true →
                  complete state.index.tree
                      state.db.records.blocks
                      other.hash = true →
                  state.index.better other.hash link.hash =
                    false →
                  state.index.better other.hash top.hash =
                    false)
  | _ => True

/- The best that connects is what an activation ends on. -/
def TipBest
    (env : ChainEnv)
    (state : ChainState) : Call → Prop
  | .activateBestChain =>
      BestConnectable (step env state .activateBestChain)
  | _ => True

theorem LiveState.complete_tip
    (hPlan : Reliable env.plan)
    (hLive : LiveState env state) :
    complete state.index.tree state.db.records.blocks
      state.tip = true := by
  rcases hLive.exists_tip with ⟨tip, hTip, hHash, -⟩
  rw [← hHash]
  exact complete_of_replay hLive.sound.ok.index.tree hTip
    (hLive.connects_tip hPlan hHash).choose_spec

/- Nothing complete beats the tip, so nothing is tried. -/
theorem unmoved_of_best
    (hIndex : IndexOk env.crypto env.params state.index)
    (hBest :
      ∀ link ∈ state.index.tree,
        state.index.eligible link.hash = true →
          complete state.index.tree
              state.db.records.blocks link.hash = true →
            state.index.better link.hash state.tip =
              false) :
    ∀ target top, ¬Heading state target top := by
  intro target top hHeading
  have hNot := hBest top hHeading.top_mem
    (hHeading.eligible hIndex)
    (complete_of_attain hHeading.attain)
  rw [hHeading.better] at hNot
  cases hNot

theorem LiveState.bestConnectable
    (hPlan : Reliable env.plan)
    (hLive : LiveState env state)
    (hAfter : LiveState env after)
    (hActivated : Activated env state after)
    (hLine : LineComplete env state .activateBestChain) :
    BestConnectable after := by
  have hOk := hLive.sound.ok.index
  have hRoot := hOk.tree.root_mem
  have hRootConnects : Connects env state _ :=
    .root hOk.tree hRoot rfl
  rcases hLine with ⟨hGenesis, hLine⟩
  rw [hOk.genesis] at hGenesis
  rcases hActivated.ended hPlan hLive (.refl env state) with
    ⟨hEnded, hPassed⟩
  rcases hLine with hAlready | hLine
  · rcases hActivated.unmoved
      (unmoved_of_best hOk hAlready) with ⟨hIndex, hChain⟩
    have hTip : after.tip = state.tip := by
      rw [ChainState.tip, ChainState.tip, hChain, hIndex]
    rcases hLive.exists_tip with ⟨tip, hMember, hHash, -⟩
    have hNot := hAlready _ hRoot hGenesis
      (complete_of_replay hOk.tree hRoot
        hRootConnects.choose_spec)
    rw [← hHash] at hNot
    have hIn := (atLeast_of_not_better hOk hRoot hMember
      hGenesis hNot).1
    refine ⟨?_, hAfter.complete_tip hPlan, ?_⟩
    · rw [hIndex, hTip, ← hHash]
      exact hIn
    · rw [hIndex, hTip, hPassed.blocks]
      exact hAlready
  · cases hEnded with
    | nothing hAll =>
        have hStill := hPassed.eligible_of_connects hOk.tree
          hRoot hGenesis hRootConnects
        rw [hAll] at hStill
        cases hStill
    | @stood best top tip hTip hHash hIn hBest hNext hAll
        hAttain hLeast =>
        have hAfterOk := hAfter.sound.ok.index
        refine ⟨hHash ▸ hIn, hAfter.complete_tip hPlan, ?_⟩
        intro other hOther hEligible hComplete
        have hBeats := hAll other hOther hEligible
        have hWas := hPassed.eligible _ hEligible
        have hOld := hOther
        rw [hPassed.tree] at hBest hOld hComplete
        rw [hPassed.blocks] at hComplete
        have hTop := hLine best hBest hNext top other hAttain
          hOld hWas hComplete
          (not_better_of_atLeast hOk hOld hBest hNext.1
            hBeats)
        have hLeastOther := Link.atLeast_trans hLeast
          (atLeast_of_not_better hOk hOld
            (Arrival.mem_of_mem_lineage
              (attain_mem hAttain)) hWas hTop).2
        rw [← hHash]
        exact not_better_of_atLeast hAfterOk hOther hTip hIn
          hLeastOther

/-
  In a run whose activations all find what is stored of the
  branches next in line to be the best there is, each of
  them ends on the best block that can be connected.
-/
theorem bestConnectable_run
    (env : ChainEnv)
    (hPlan : Reliable env.plan)
    (calls : List Call)
    (hLine :
      EveryStep env (LineComplete env)
        (.fresh env.crypto env.params) calls) :
    EveryStep env (TipBest env)
      (.fresh env.crypto env.params) calls := by
  refine hLine.imp
    (fun state call (hLive : LiveState env state) =>
      hLive.step hPlan call)
    ?_ (LiveState.fresh env)
  intro state call hLive hLine
  cases call with
  | acceptHeader header now => trivial
  | acceptBlock block now => trivial
  | activateBestChain =>
      rcases hLive.activated hPlan with
        ⟨hStart, hAfter, hActivated⟩
      have hDone := hStart.bestConnectable hPlan hAfter
        hActivated hLine
      exact hDone

end Best

namespace Sample

/- The headers of the better branch have no bodies yet. -/
def headersAhead : List Call :=
  [.acceptBlock a1 genesisTimestamp,
    .acceptHeader c1.header genesisTimestamp,
    .acceptHeader c2.header genesisTimestamp,
    .activateBestChain]

/- Where every branch is stored in full. -/
theorem lineComplete_of_attain
    {state : ChainState}
    (hStored :
      state.index.eligible state.index.genesis = true ∧
        ∀ link ∈ state.index.tree,
          attain state.index.tree state.db.records.blocks
            link.hash = some link) :
    LineComplete env state .activateBestChain := by
  rcases hStored with ⟨hGenesis, hAll⟩
  refine ⟨hGenesis, Or.inr ?_⟩
  intro link hLink _ top other hAttain _ _ _ hNot
  rw [hAll link hLink, Option.some_inj] at hAttain
  rw [← hAttain]
  exact hNot

theorem bestConnectable_reorganisation :
    EveryStep env (TipBest env)
      (.fresh env.crypto env.params) reorganisation := by
  refine bestConnectable_run env (fun _ _ => rfl)
    reorganisation ?_
  refine ⟨trivial, lineComplete_of_attain ?_, trivial,
    trivial, lineComplete_of_attain ?_, trivial⟩
  · rw [env_eq]
    decide +kernel
  · rw [env_eq]
    decide +kernel

/-
  The child of the tip is stored and in the running, and the
  call leaves it there because headers alone weigh more.
-/
theorem stored_child_not_connected :
    (run env headersAhead).tip = genesisHash ∧
      ∃ link ∈ (run env headersAhead).index.tree,
        link.parent = some (run env headersAhead).tip ∧
          (run env headersAhead).index.eligible link.hash =
            true ∧
          complete (run env headersAhead).index.tree
              (run env headersAhead).db.records.blocks
              link.hash = true ∧
          (run env headersAhead).index.better link.hash
            (run env headersAhead).tip = true := by
  rw [env_eq]
  decide +kernel

end Sample

end Amarian
