import Amarian.Chain.IndexRuns
import Amarian.Chain.Invariant
import Amarian.Chain.Replay
import Mathlib.Data.List.Chain
import Mathlib.Data.List.TakeWhile

/-
  Moving the active chain from one block to another.

  The plan between two blocks of one tree turns at their
  deepest common ancestor.  The blocks that leave and the
  blocks that come in are the two paths above it, and to
  carry the plan out is to exchange one for the other.

  Key definitions include:
    * `ChainSwitch.Right`
    * `ChainSwitch.carryOut`

  Key theorems include:
    * `common_mem_fork`
    * `disconnect_disjoint`
    * `planChainSwitch_exact`
-/

------------------------------------------------------------
-- Heights Along A Line
------------------------------------------------------------

namespace Amarian

variable {c : Crypto} {params : ChainParams}
variable {tree : List Link}

/- A line has one block at every height down to genesis. -/
theorem heights_ancestry
    (hTree : TreeOk c params tree)
    {link : Link}
    (hLink : link ∈ tree) :
    (ancestry tree link.hash).map
        (fun other => other.height.toNat) =
      (List.range (link.height.toNat + 1)).reverse := by
  have hGrown := hTree.grown
  refine hGrown.ancestor_induction
    (motive := fun link =>
      (ancestry tree link.hash).map
          (fun other => other.height.toNat) =
        (List.range (link.height.toNat + 1)).reverse)
    ?_ ?_ link hLink
  · intro root hRoot hNone
    have hLine := hGrown.lineage_root hRoot hNone
    have hHeight := hTree.height_add_one hRoot
    rw [ancestry, hLine, List.length_singleton] at hHeight
    have hZero : root.height.toNat = 0 := by omega
    rw [ancestry, hLine, List.map_singleton, hZero]
    rfl
  · intro link hLink above hAbove hParent ih
    have hLine := hGrown.lineage_step hLink hParent
    have hHeight := hTree.height_add_one hLink
    have hBelow := hTree.height_add_one hAbove
    rw [ancestry, hLine, List.length_cons, hBelow] at hHeight
    rw [ancestry, hLine, List.map_cons, List.range_succ,
      List.reverse_append, List.reverse_singleton,
      List.singleton_append,
      show link.height.toNat = above.height.toNat + 1 by
        omega]
    exact congrArg (_ :: ·) ih

theorem height_le_of_mem
    (hTree : TreeOk c params tree)
    {link other : Link}
    (hLink : link ∈ tree)
    (hOther : other ∈ ancestry tree link.hash) :
    other.height.toNat ≤ link.height.toNat := by
  have hHeight : other.height.toNat ∈
      (ancestry tree link.hash).map
        fun other => other.height.toNat :=
    List.mem_map_of_mem hOther
  rw [heights_ancestry hTree hLink, List.mem_reverse,
    List.mem_range] at hHeight
  omega

/- Two blocks of one line and one height are one block. -/
theorem eq_of_height
    (hTree : TreeOk c params tree)
    {link first second : Link}
    (hLink : link ∈ tree)
    (hFirst : first ∈ ancestry tree link.hash)
    (hSecond : second ∈ ancestry tree link.hash)
    (hHeight : first.height = second.height) :
    first = second := by
  have hGrown := hTree.grown
  have hFirstMem := Arrival.mem_of_mem_lineage hFirst
  have hSecondMem := Arrival.mem_of_mem_lineage hSecond
  have hFirstLength := hTree.height_add_one hFirstMem
  have hSecondLength := hTree.height_add_one hSecondMem
  have hSuffix : ancestry tree first.hash <:+
      ancestry tree second.hash :=
    List.suffix_of_suffix_length_le
      (hGrown.lineage_suffix hLink first hFirst)
      (hGrown.lineage_suffix hLink second hSecond)
      (by rw [hFirstLength, hSecondLength, hHeight])
  have hSame := hSuffix.eq_of_length
    (by rw [hFirstLength, hSecondLength, hHeight])
  rcases hGrown.exists_lineage_eq_cons hFirstMem with
    ⟨firstRest, hFirstLine⟩
  rcases hGrown.exists_lineage_eq_cons hSecondMem with
    ⟨secondRest, hSecondLine⟩
  rw [ancestry, hFirstLine, ancestry, hSecondLine] at hSame
  exact (List.cons.inj hSame).1

/- The walk finds every block of the line at its height. -/
theorem ancestor_eq
    (hTree : TreeOk c params tree)
    {link other : Link}
    (hLink : link ∈ tree)
    (hOther : other ∈ ancestry tree link.hash) :
    ancestor (ancestry tree link.hash) other.height =
      some other := by
  have hLe := height_le_of_mem hTree hLink hOther
  rcases ancestor_reached hTree hLink
      (UInt32.le_iff_toNat_le.mpr hLe) with
    ⟨reached, hReached, hFound, hHeight⟩
  rw [hFound,
    eq_of_height hTree hLink hReached hOther hHeight]

/- Each block of a line names the next as its parent. -/
theorem isChain_ancestry
    (hTree : TreeOk c params tree)
    {link : Link}
    (hLink : link ∈ tree) :
    (ancestry tree link.hash).IsChain
      fun child above => child.parent = some above.hash := by
  have hGrown := hTree.grown
  refine hGrown.ancestor_induction
    (motive := fun link =>
      (ancestry tree link.hash).IsChain
        fun child above => child.parent = some above.hash)
    ?_ ?_ link hLink
  · intro root hRoot hNone
    rw [ancestry, hGrown.lineage_root hRoot hNone]
    exact List.isChain_singleton _
  · intro link hLink above hAbove hParent ih
    rcases hGrown.exists_lineage_eq_cons hAbove with
      ⟨rest, hLine⟩
    rw [ancestry, hLine] at ih
    rw [ancestry, hGrown.lineage_step hLink hParent, hLine]
    exact List.isChain_cons_cons.mpr ⟨hParent, ih⟩

------------------------------------------------------------
-- The Fork
------------------------------------------------------------

theorem stepBack_subset
    (olderLine : List Link) :
    ∀ newerLine : List Link,
      (stepBack olderLine newerLine).disconnect ⊆
          olderLine ∧
        (stepBack olderLine newerLine).connect ⊆
          newerLine := by
  induction olderLine with
  | nil =>
      intro newerLine
      simp [stepBack]
  | cons older olderLine ih =>
      intro newerLine
      cases newerLine with
      | nil => simp [stepBack]
      | cons newer newerLine =>
          unfold stepBack
          split
          · simp
          · rcases ih newerLine with ⟨hDown, hUp⟩
            exact ⟨List.cons_subset_cons _ hDown,
              List.cons_subset_cons _ hUp⟩

/-
  At equal heights the two lines are passed pairwise, and a
  pair that is passed is not one block.
-/
theorem stepBack_disjoint
    {olderLine : List Link} :
    ∀ {newerLine : List Link},
      olderLine.map (fun link => link.height.toNat) =
          newerLine.map (fun link => link.height.toNat) →
        (olderLine.map fun link =>
            link.height.toNat).Pairwise (· > ·) →
          (stepBack olderLine newerLine).disconnect.Disjoint
            (stepBack olderLine newerLine).connect := by
  induction olderLine with
  | nil =>
      intro newerLine _ _ link hLink
      simp [stepBack] at hLink
  | cons older olderLine ih =>
      intro newerLine hHeights hFalling
      cases newerLine with
      | nil => cases hHeights
      | cons newer newerLine =>
          rw [List.map_cons, List.map_cons,
            List.cons.injEq] at hHeights
          rw [List.map_cons, List.pairwise_cons] at hFalling
          rcases stepBack_subset olderLine newerLine with
            ⟨hDown, hUp⟩
          have hOlderLow : ∀ link ∈ olderLine,
              older.height.toNat > link.height.toNat :=
            fun link hLink =>
              hFalling.1 _ (List.mem_map_of_mem hLink)
          have hNewerLow : ∀ link ∈ newerLine,
              older.height.toNat > link.height.toNat := by
            intro link hLink
            apply hFalling.1
            rw [hHeights.2]
            exact List.mem_map_of_mem hLink
          unfold stepBack
          split
          · exact List.disjoint_nil_left _
          · rename_i hDiffer
            intro link hLeft hRight
            dsimp only at hLeft hRight
            rcases List.mem_cons.mp hLeft with rfl | hLeft
            · rcases List.mem_cons.mp hRight with
                hSame | hRight
              · exact hDiffer (congrArg Link.hash hSame)
              · exact Nat.lt_irrefl _
                  (hNewerLow link (hUp hRight))
            · rcases List.mem_cons.mp hRight with
                hSame | hRight
              · have hLow := hOlderLow link (hDown hLeft)
                rw [hSame, ← hHeights.1] at hLow
                exact Nat.lt_irrefl _ hLow
              · exact ih hHeights.2 hFalling.2 hLeft hRight

theorem pairwise_heights
    (hTree : TreeOk c params tree)
    {link : Link}
    (hLink : link ∈ tree) :
    ((ancestry tree link.hash).map fun other =>
        other.height.toNat).Pairwise (· > ·) := by
  rw [heights_ancestry hTree hLink, List.pairwise_reverse]
  exact List.pairwise_lt_range

/- No block both leaves and comes in. -/
theorem disconnect_disjoint
    (hTree : TreeOk c params tree)
    {start target : Link}
    (hStart : start ∈ tree)
    (hTarget : target ∈ tree) :
    (planChainSwitch (ancestry tree start.hash)
          (ancestry tree target.hash)).disconnect.Disjoint
      (planChainSwitch (ancestry tree start.hash)
          (ancestry tree target.hash)).connect := by
  rcases planChainSwitch_levels hTree hStart hTarget with
    ⟨older, hOlder, newer, hNewer, hLevel, hOlderLine,
      hNewerLine, hPlan⟩
  rcases stepBack_subset (ancestry tree older.hash)
    (ancestry tree newer.hash) with ⟨hDown, hUp⟩
  have hHeights :
      (ancestry tree older.hash).map
          (fun link => link.height.toNat) =
        (ancestry tree newer.hash).map
          fun link => link.height.toNat := by
    rw [heights_ancestry hTree hOlder,
      heights_ancestry hTree hNewer, hLevel]
  have hStepped := stepBack_disjoint hHeights
    (pairwise_heights hTree hOlder)
  rw [hPlan]
  intro link hLeft hRight
  dsimp only at hLeft hRight
  rw [List.mem_reverse, List.mem_append] at hRight
  have hInTarget : link ∈ ancestry tree target.hash := by
    rcases hRight with hRight | hRight
    · exact (List.takeWhile_prefix _).subset hRight
    · apply (List.dropWhile_suffix fun link =>
        decide (link.height > older.height)).subset
      rw [hNewerLine]
      exact hUp hRight
  rcases List.mem_append.mp hLeft with hLeft | hLeft
  · -- above the target there is nothing of its line
    have hHigh := List.mem_takeWhile_imp hLeft
    have hLow := height_le_of_mem hTree hTarget hInTarget
    rw [decide_eq_true_eq, gt_iff_lt,
      UInt32.lt_iff_toNat_lt] at hHigh
    omega
  · have hLow := height_le_of_mem hTree hOlder (hDown hLeft)
    rcases hRight with hRight | hRight
    · have hHigh := List.mem_takeWhile_imp hRight
      rw [decide_eq_true_eq, gt_iff_lt,
        UInt32.lt_iff_toNat_lt] at hHigh
      omega
    · exact hStepped hLeft hRight

/- The fork is the deepest block that both lines share. -/
theorem common_mem_fork
    (hTree : TreeOk c params tree)
    {start target fork other : Link}
    (hStart : start ∈ tree)
    (hTarget : target ∈ tree)
    (hDown :
      ancestry tree start.hash =
        (planChainSwitch (ancestry tree start.hash)
            (ancestry tree target.hash)).disconnect ++
          ancestry tree fork.hash)
    (hUp :
      ancestry tree target.hash =
        (planChainSwitch (ancestry tree start.hash)
              (ancestry tree
                target.hash)).connect.reverse ++
          ancestry tree fork.hash)
    (hFirst : other ∈ ancestry tree start.hash)
    (hSecond : other ∈ ancestry tree target.hash) :
    other ∈ ancestry tree fork.hash := by
  rw [hDown, List.mem_append] at hFirst
  rw [hUp, List.mem_append, List.mem_reverse] at hSecond
  rcases hFirst with hFirst | hFirst
  · rcases hSecond with hSecond | hSecond
    · exact absurd hSecond
        (disconnect_disjoint hTree hStart hTarget hFirst)
    · exact hSecond
  · exact hFirst

------------------------------------------------------------
-- Carrying The Plan Out
------------------------------------------------------------

/- Take blocks off a chain; each has to be its tip. -/
def revert : List Link → List Hash256 → Option (List Hash256)
  | [], chain => some chain
  | link :: links, tip :: chain =>
      if link.hash = tip then revert links chain else none
  | _ :: _, [] => none

/- Put blocks on a chain; each has to be a child of its tip. -/
def extendBy : List Link → List Hash256 → Option (List Hash256)
  | [], chain => some chain
  | link :: links, chain =>
      if link.parent = chain.head? then
        extendBy links (link.hash :: chain)
      else
        none

/- Reverts, then applies. -/
def ChainSwitch.carryOut
    (plan : ChainSwitch)
    (chain : List Hash256) : Option (List Hash256) :=
  (revert plan.disconnect chain).bind (extendBy plan.connect)

theorem revert_eq
    (links : List Link)
    (chain : List Hash256) :
    revert links (links.map Link.hash ++ chain) =
      some chain := by
  induction links with
  | nil => rfl
  | cons link links ih =>
      rw [List.map_cons, List.cons_append, revert, if_pos rfl,
        ih]

theorem extendBy_eq
    {links : List Link} :
    ∀ {bottom : Link} {chain : List Hash256},
      chain.head? = some bottom.hash →
        (bottom :: links).IsChain
            (fun above child =>
              child.parent = some above.hash) →
          extendBy links chain =
            some ((links.map Link.hash).reverse ++ chain) := by
  induction links with
  | nil =>
      intro bottom chain _ _
      rfl
  | cons link links ih =>
      intro bottom chain hTip hChain
      rcases List.isChain_cons_cons.mp hChain with
        ⟨hParent, hRest⟩
      rw [extendBy, if_pos (hParent.trans hTip.symm),
        ih rfl hRest, List.map_cons, List.reverse_cons,
        List.append_assoc, List.singleton_append]

/-
  What a plan is for.  It turns at the deepest common
  ancestor of the two blocks, its lists are the two paths
  above it, and carrying it out on the chain of one block
  gives the chain of the other.
-/
structure ChainSwitch.Right
    (tree : List Link)
    (start target : Link)
    (plan : ChainSwitch)
    (fork : Link) : Prop where
  point : plan.forkPoint = some fork
  common :
    fork ∈ ancestry tree start.hash ∧
      fork ∈ ancestry tree target.hash
  deepest :
    ∀ other ∈ ancestry tree start.hash,
      other ∈ ancestry tree target.hash →
        other ∈ ancestry tree fork.hash ∧
          other.height ≤ fork.height
  walked :
    ancestor (ancestry tree start.hash) fork.height =
        some fork ∧
      ancestor (ancestry tree target.hash) fork.height =
        some fork
  down :
    ancestry tree start.hash =
      plan.disconnect ++ ancestry tree fork.hash
  up :
    (ancestry tree target.hash).reverse =
      (ancestry tree fork.hash).reverse ++ plan.connect
  leaving :
    (plan.disconnect ++ [fork]).IsChain
      fun child above => child.parent = some above.hash
  coming :
    (fork :: plan.connect).IsChain
      fun above child => child.parent = some above.hash
  apart :
    ∀ link ∈ plan.disconnect, link ∉ plan.connect
  exchanged :
    plan.carryOut (branch tree start.hash) =
      some (branch tree target.hash)

theorem planChainSwitch_right
    (hTree : TreeOk c params tree)
    {start target : Link}
    (hStart : start ∈ tree)
    (hTarget : target ∈ tree) :
    ∃ fork ∈ tree,
      (planChainSwitch (ancestry tree start.hash)
          (ancestry tree target.hash)).Right tree start target
        fork := by
  have hGrown := hTree.grown
  rcases planChainSwitch_spec hTree hStart hTarget with
    ⟨fork, hFork, hPoint, hDown, hUp⟩
  have hDisjoint := disconnect_disjoint hTree hStart hTarget
  have hCommon := fun other =>
    @common_mem_fork c params tree hTree start target fork
      other hStart hTarget hDown hUp
  generalize planChainSwitch (ancestry tree start.hash)
    (ancestry tree target.hash) = plan
    at hPoint hDown hUp hDisjoint ⊢
  have hSelf : fork ∈ ancestry tree fork.hash :=
    hGrown.self_mem_lineage hFork
  have hInStart : fork ∈ ancestry tree start.hash := by
    rw [hDown]
    exact List.mem_append_right _ hSelf
  have hInTarget : fork ∈ ancestry tree target.hash := by
    rw [hUp]
    exact List.mem_append_right _ hSelf
  rcases hGrown.exists_lineage_eq_cons hFork with
    ⟨rest, hForkLine⟩
  have hLeaving := isChain_ancestry hTree hStart
  rw [hDown, ancestry, hForkLine, ← List.singleton_append,
    ← List.append_assoc] at hLeaving
  have hComing := isChain_ancestry hTree hTarget
  rw [hUp, ancestry, hForkLine, ← List.singleton_append,
    ← List.append_assoc] at hComing
  have hUpward := List.isChain_reverse.mpr
    hComing.left_of_append
  rw [List.reverse_append, List.reverse_reverse,
    List.reverse_singleton, List.singleton_append] at hUpward
  refine ⟨fork, hFork, hPoint, ⟨hInStart, hInTarget⟩, ?_,
    ⟨ancestor_eq hTree hStart hInStart,
      ancestor_eq hTree hTarget hInTarget⟩,
    hDown, ?_, hLeaving.left_of_append, hUpward,
    fun link hLeft hRight => hDisjoint hLeft hRight, ?_⟩
  · intro other hFirst hSecond
    have hOther := hCommon other hFirst hSecond
    exact ⟨hOther, UInt32.le_iff_toNat_le.mpr
      (height_le_of_mem hTree hFork hOther)⟩
  · rw [hUp, List.reverse_append, List.reverse_reverse]
  · have hTip : (branch tree fork.hash).head? =
        some fork.hash := by
      rw [branch, ancestry, hForkLine]
      rfl
    have hStartChain : branch tree start.hash =
        plan.disconnect.map Link.hash ++
          branch tree fork.hash := by
      rw [branch, hDown, List.map_append]
      rfl
    have hTargetChain : branch tree target.hash =
        (plan.connect.map Link.hash).reverse ++
          branch tree fork.hash := by
      rw [branch, hUp, List.map_append, List.map_reverse]
      rfl
    rw [ChainSwitch.carryOut, hStartChain, revert_eq,
      Option.bind_some, extendBy_eq hTip hUpward,
      hTargetChain]

/- The plan is right for every two entries of one index. -/
theorem planChainSwitch_exact
    (c : Crypto)
    (params : ChainParams)
    (calls : List IndexCall) :
    ∀ start ∈ (BlockIndex.after c params calls).entries,
      ∀ target ∈ (BlockIndex.after c params calls).entries,
        ∃ fork ∈ (BlockIndex.after c params calls).entries,
          (planChainSwitch
              (ancestry (BlockIndex.after c params calls).tree
                start.hash)
              (ancestry (BlockIndex.after c params calls).tree
                target.hash)).Right
            (BlockIndex.after c params calls).tree
            start.toLink target.toLink fork.toLink := by
  have hIndex :=
    (IndexOk.forNetwork c params).foldl_call calls
  change IndexOk c params (BlockIndex.after c params calls)
    at hIndex
  generalize BlockIndex.after c params calls = index
    at hIndex ⊢
  intro start hStart target hTarget
  rcases planChainSwitch_right hIndex.tree
    (List.mem_map_of_mem hStart)
    (List.mem_map_of_mem hTarget) with
    ⟨link, hLink, hRight⟩
  rcases List.mem_map.mp hLink with ⟨fork, hFork, rfl⟩
  exact ⟨fork, hFork, hRight⟩

namespace Sample

/- A first block, and two beside it that take over. -/
def forkCalls : List IndexCall :=
  [.addHeader a1.header genesisTimestamp,
    .addHeader c1.header genesisTimestamp,
    .addHeader c2.header genesisTimestamp]

/- The index after these headers. -/
def forkIndex : BlockIndex :=
  BlockIndex.after .reference regtestParams forkCalls

theorem forkIndex_eq :
    forkIndex =
      BlockIndex.after (.recalling digests) regtestParams
        forkCalls := by
  rw [forkIndex, reference_eq]

/- The first block leaves, and the two others come in. -/
theorem planChainSwitch_forked :
    ∃ start ∈ forkIndex.entries,
      ∃ target ∈ forkIndex.entries,
        ∃ fork ∈ forkIndex.entries,
          let plan :=
            planChainSwitch
              (ancestry forkIndex.tree start.hash)
              (ancestry forkIndex.tree target.hash)
          start.hash = a1Hash ∧
            target.hash = c2Hash ∧
            plan.disconnect.map Link.hash = [a1Hash] ∧
            plan.connect.map Link.hash = [c1Hash, c2Hash] ∧
            plan.Right forkIndex.tree start.toLink
              target.toLink fork.toLink := by
  have hHeld :
      (forkIndex.find a1Hash).isSome = true ∧
        (forkIndex.find c2Hash).isSome = true := by
    rw [forkIndex_eq]
    decide +kernel
  have hPlan :
      (planChainSwitch (ancestry forkIndex.tree a1Hash)
            (ancestry forkIndex.tree c2Hash)).disconnect.map
            Link.hash =
          [a1Hash] ∧
        (planChainSwitch (ancestry forkIndex.tree a1Hash)
            (ancestry forkIndex.tree c2Hash)).connect.map
            Link.hash =
          [c1Hash, c2Hash] := by
    rw [forkIndex_eq]
    decide +kernel
  rcases Option.isSome_iff_exists.mp hHeld.1 with
    ⟨start, hStart⟩
  rcases Option.isSome_iff_exists.mp hHeld.2 with
    ⟨target, hTarget⟩
  rcases findEntry_eq_some hStart with
    ⟨hStartIn, hStartHash⟩
  rcases findEntry_eq_some hTarget with
    ⟨hTargetIn, hTargetHash⟩
  rcases planChainSwitch_exact .reference regtestParams
      forkCalls start hStartIn target hTargetIn with
    ⟨fork, hFork, hRight⟩
  refine ⟨start, hStartIn, target, hTargetIn, fork, hFork,
    hStartHash, hTargetHash, ?_, ?_, hRight⟩
  · rw [hStartHash, hTargetHash]
    exact hPlan.1
  · rw [hStartHash, hTargetHash]
    exact hPlan.2

end Sample

end Amarian
