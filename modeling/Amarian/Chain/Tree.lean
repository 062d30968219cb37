import Amarian.Chain.BlockIndex
import Amarian.Lib.Except

/-
  The tree of links an index holds, and the plan for moving
  between two of its blocks.

  Key definitions include:
    * `ancestry`
    * `TreeOk`

  Key theorems include:
    * `TreeOk.grown`
    * `TreeOk.height_add_one`
    * `planChainSwitch_spec`
-/

------------------------------------------------------------
-- Trees Of Accepted Headers
------------------------------------------------------------

namespace Amarian

/- A block and its ancestors in a tree of links. -/
abbrev ancestry
    (tree : List Link)
    (hash : Hash256) : List Link :=
  Arrival.lineage Link.hash Link.parent tree hash

/-
  Genesis, and below it only headers that passed the rules
  at the time they came in.
-/
inductive TreeOk
    (c : Crypto)
    (params : ChainParams) : List Link → Prop
  | genesis :
      TreeOk c params
        [rootLink c (buildGenesisBlock c params).header]
  | add
      {older : List Link}
      {parent : Link}
      {header : BlockHeader}
      {now : Int64}
      (hOlder : TreeOk c params older)
      (hFresh :
        ∀ link ∈ older, link.hash ≠ header.hash c)
      (hParent : parent ∈ older)
      (hPrev : parent.hash = header.prevBlock)
      (hHeader : checkBlockHeader c header params = .ok ())
      (hContext :
        contextualCheckBlockHeader header
            (headerContextFor parent
              (ancestry older header.prevBlock) now params
              (some header.timestamp)) =
          .ok ()) :
      TreeOk c params
        (childLink c parent header older.length :: older)

variable {c : Crypto} {params : ChainParams}
variable {tree : List Link}

namespace TreeOk

theorem grown
    (hTree : TreeOk c params tree) :
    Arrival.Grown Link.hash Link.parent tree := by
  induction hTree with
  | genesis => exact .root rfl
  | add hOlder hFresh hParent hPrev hHeader hContext ih =>
      exact .add ih hFresh hParent rfl

/- A child is one block higher than its parent. -/
theorem height_of_context
    {header : BlockHeader}
    {parent : Link}
    {line : List Link}
    {now : Int64}
    {candidate : Option Int64}
    (hContext :
      contextualCheckBlockHeader header
          (headerContextFor parent line now params
            candidate) =
        .ok ()) :
    header.height.toNat = parent.height.toNat + 1 := by
  unfold contextualCheckBlockHeader headerContextFor
    at hContext
  simp only [except_bind_eq_ok, rejectIf_eq_ok,
    Bool.or_eq_false_iff, bne_eq_false_iff_eq,
    beq_eq_false_iff_ne] at hContext
  rcases hContext with ⟨-, -, -, ⟨hMax, hHeight⟩, -⟩
  rw [hHeight]
  have hNe : parent.height.toNat ≠ 4294967295 := by
    intro hToNat
    apply hMax
    exact UInt32.toNat_inj.mp hToNat
  have hLt := parent.height.toNat_lt
  rw [UInt32.toNat_add]
  simp only [UInt32.toNat_ofNat]
  omega

theorem height_add_one
    (hTree : TreeOk c params tree)
    {link : Link}
    (hLink : link ∈ tree) :
    (ancestry tree link.hash).length =
      link.height.toNat + 1 := by
  induction hTree generalizing link with
  | genesis =>
      rw [List.mem_singleton] at hLink
      subst hLink
      simp [Arrival.lineage, rootLink, buildGenesisBlock]
  | @add older parent header now hOlder hFresh hParent hPrev
      hHeader hContext ih =>
      have hGrown := (TreeOk.add hOlder hFresh hParent hPrev
        hHeader hContext).grown
      rcases List.mem_cons.mp hLink with rfl | hOld
      · have hSame :
            ancestry
                (childLink c parent header older.length ::
                  older) parent.hash =
              ancestry older parent.hash :=
          Arrival.Grown.lineage_cons_of_mem hFresh
            ⟨parent, hParent, rfl⟩
        rw [ancestry] at hSame ⊢
        rw [hGrown.lineage_step hLink rfl, hSame,
          List.length_cons]
        have hAbove := ih hParent
        have hHeight := height_of_context hContext
        rw [hAbove, childLink, hHeight]
      · rw [ancestry, Arrival.Grown.lineage_cons_of_mem
          hFresh ⟨link, hOld, rfl⟩]
        exact ih hOld

theorem sequence_lt
    (hTree : TreeOk c params tree)
    {link : Link}
    (hLink : link ∈ tree) :
    link.sequence < tree.length := by
  induction hTree with
  | genesis =>
      rw [List.mem_singleton] at hLink
      subst hLink
      simp [rootLink]
  | add hOlder hFresh hParent hPrev hHeader hContext ih =>
      rcases List.mem_cons.mp hLink with rfl | hOld
      · simp [childLink]
      · have hLt := ih hOld
        simp only [List.length_cons]
        omega

theorem sequence_injective
    (hTree : TreeOk c params tree)
    {first second : Link}
    (hFirst : first ∈ tree)
    (hSecond : second ∈ tree)
    (hSequence : first.sequence = second.sequence) :
    first = second := by
  induction hTree with
  | genesis =>
      rw [List.mem_singleton] at hFirst hSecond
      rw [hFirst, hSecond]
  | add hOlder hFresh hParent hPrev hHeader hContext ih =>
      rcases List.mem_cons.mp hFirst with hNew | hOld
      · rcases List.mem_cons.mp hSecond with hToo | hOther
        · rw [hNew, hToo]
        · have hLt := hOlder.sequence_lt hOther
          rw [hNew] at hSequence
          simp only [childLink] at hSequence
          omega
      · rcases List.mem_cons.mp hSecond with hNew | hOther
        · have hLt := hOlder.sequence_lt hOld
          rw [hNew] at hSequence
          simp only [childLink] at hSequence
          omega
        · exact ih hOld hOther

/- What a link was checked against when it came in. -/
theorem child_cases
    (hTree : TreeOk c params tree)
    {link : Link}
    (hLink : link ∈ tree) :
    link = rootLink c (buildGenesisBlock c params).header ∨
      ∃ above ∈ tree, ∃ now,
        above.hash = link.header.prevBlock ∧
          link = childLink c above link.header
            link.sequence ∧
          checkBlockHeader c link.header params = .ok () ∧
          contextualCheckBlockHeader link.header
              (headerContextFor above
                (ancestry tree above.hash) now params
                (some link.header.timestamp)) =
            .ok () := by
  induction hTree with
  | genesis => exact Or.inl (List.mem_singleton.mp hLink)
  | @add older parent header now hOlder hFresh hParent hPrev
      hHeader hContext ih =>
      have hSame : ∀ above ∈ older,
          ancestry
              (childLink c parent header older.length ::
                older) above.hash =
            ancestry older above.hash := by
        intro above hAbove
        exact Arrival.Grown.lineage_cons_of_mem hFresh
          ⟨above, hAbove, rfl⟩
      rcases List.mem_cons.mp hLink with rfl | hOld
      · right
        refine ⟨parent, List.mem_cons_of_mem _ hParent, now,
          hPrev, rfl, hHeader, ?_⟩
        rw [hSame parent hParent, hPrev]
        exact hContext
      · refine (ih hOld).imp_right ?_
        rintro ⟨above, hAbove, now, hHash, hChild, hFine,
          hChecked⟩
        refine ⟨above, List.mem_cons_of_mem _ hAbove, now,
          hHash, hChild, hFine, ?_⟩
        rw [hSame above hAbove]
        exact hChecked

end TreeOk

------------------------------------------------------------
-- The Plan
------------------------------------------------------------

/- Dropping what is too high leaves an ancestor's line. -/
theorem dropWhile_ancestry
    (hTree : TreeOk c params tree)
    (height : UInt32)
    {link : Link}
    (hLink : link ∈ tree) :
    ∃ reached ∈ tree,
      (ancestry tree link.hash).dropWhile
          (fun other => decide (other.height > height)) =
        ancestry tree reached.hash ∧
      (link.height ≤ height → reached = link) ∧
      (height ≤ link.height → reached.height = height) := by
  have hGrown := hTree.grown
  refine hGrown.ancestor_induction
    (motive := fun link =>
      ∃ reached ∈ tree,
        (ancestry tree link.hash).dropWhile
            (fun other => decide (other.height > height)) =
          ancestry tree reached.hash ∧
        (link.height ≤ height → reached = link) ∧
        (height ≤ link.height → reached.height = height))
    ?_ ?_ link hLink
  · intro root hRoot hNone
    have hLine := hGrown.lineage_root hRoot hNone
    have hHeight := hTree.height_add_one hRoot
    rw [ancestry, hLine, List.length_singleton] at hHeight
    have hLow : root.height ≤ height := by
      rw [UInt32.le_iff_toNat_le]
      omega
    refine ⟨root, hRoot, ?_, fun _ => rfl, ?_⟩
    · rw [ancestry, hLine]
      simp [UInt32.not_lt.mpr hLow]
    · intro hHigh
      exact UInt32.le_antisymm hLow hHigh
  · intro link hLink above hAbove hParent ih
    have hLine := hGrown.lineage_step hLink hParent
    by_cases hHigh : link.height > height
    · rcases ih with ⟨reached, hReached, hDrop, -, hExact⟩
      have hHeight := hTree.height_add_one hLink
      have hBelow := hTree.height_add_one hAbove
      rw [ancestry, hLine, List.length_cons, hBelow]
        at hHeight
      refine ⟨reached, hReached, ?_, ?_, ?_⟩
      · rw [ancestry, hLine, List.dropWhile_cons_of_pos
          (by simpa using hHigh)]
        exact hDrop
      · intro hLow
        exact absurd hHigh (UInt32.not_lt.mpr hLow)
      · intro _
        apply hExact
        rw [UInt32.le_iff_toNat_le]
        have hLt := UInt32.lt_iff_toNat_lt.mp hHigh
        omega
    · refine ⟨link, hLink, ?_, fun _ => rfl, ?_⟩
      · rw [ancestry, hLine, List.dropWhile_cons_of_neg
          (by simpa using hHigh)]
      · intro hLe
        exact UInt32.le_antisymm (UInt32.not_lt.mp hHigh) hLe

/- The walk to a height on the line ends on the line. -/
theorem ancestor_reached
    (hTree : TreeOk c params tree)
    {link : Link}
    (hLink : link ∈ tree)
    {height : UInt32}
    (hLow : height ≤ link.height) :
    ∃ reached ∈ ancestry tree link.hash,
      ancestor (ancestry tree link.hash) height =
          some reached ∧
        reached.height = height := by
  have hGrown := hTree.grown
  rcases hGrown.exists_lineage_eq_cons hLink with
    ⟨rest, hLine⟩
  rcases dropWhile_ancestry hTree height hLink with
    ⟨reached, hReached, hDrop, -, hExact⟩
  rcases hGrown.exists_lineage_eq_cons hReached with
    ⟨reachedRest, hReachedLine⟩
  refine ⟨reached, ?_, ?_, hExact hLow⟩
  · apply (List.dropWhile_suffix _).subset
    rw [hDrop, ancestry, hReachedLine]
    exact List.mem_cons_self ..
  · rw [ancestry, ancestry, hLine, hReachedLine] at hDrop
    rw [ancestry, hLine, ancestor,
      if_neg (UInt32.not_lt.mpr hLow), hDrop]
    rfl

/- Two blocks of one height step back to where they meet. -/
theorem stepBack_spec
    (hTree : TreeOk c params tree)
    {first second : Link}
    (hFirst : first ∈ tree)
    (hSecond : second ∈ tree)
    (hHeight : first.height = second.height) :
    let plan := stepBack (ancestry tree first.hash)
      (ancestry tree second.hash)
    ∃ fork ∈ tree,
      plan.forkPoint = some fork ∧
        ancestry tree first.hash =
          plan.disconnect ++ ancestry tree fork.hash ∧
        ancestry tree second.hash =
          plan.connect ++ ancestry tree fork.hash := by
  have hGrown := hTree.grown
  revert second
  refine hGrown.ancestor_induction
    (motive := fun first =>
      ∀ {second : Link},
        second ∈ tree →
        first.height = second.height →
        let plan := stepBack (ancestry tree first.hash)
          (ancestry tree second.hash)
        ∃ fork ∈ tree,
          plan.forkPoint = some fork ∧
            ancestry tree first.hash =
              plan.disconnect ++ ancestry tree fork.hash ∧
            ancestry tree second.hash =
              plan.connect ++ ancestry tree fork.hash)
    ?_ ?_ first hFirst
  · intro root hRoot hNone second hSecond hHeight
    have hFirstLine := hGrown.lineage_root hRoot hNone
    have hFirstLength := hTree.height_add_one hRoot
    have hSecondLength := hTree.height_add_one hSecond
    cases hParent : second.parent with
    | none =>
        have hSame := hGrown.root_unique hRoot hSecond hNone
          hParent
        subst hSame
        refine ⟨root, hRoot, ?_⟩
        simp [ancestry, hFirstLine, stepBack]
    | some above =>
        have hSecondLine :=
          hGrown.lineage_step hSecond hParent
        rcases hGrown.exists_parent hSecond hParent with
          ⟨other, hOther, rfl⟩
        have hOtherLength := hTree.height_add_one hOther
        rw [ancestry, hFirstLine, List.length_singleton]
          at hFirstLength
        rw [ancestry, hSecondLine, List.length_cons,
          hOtherLength, ← hHeight] at hSecondLength
        omega
  · intro first hFirst above hAbove hParent ih second hSecond
      hHeight
    have hFirstLine := hGrown.lineage_step hFirst hParent
    have hFirstLength := hTree.height_add_one hFirst
    have hAboveLength := hTree.height_add_one hAbove
    have hSecondLength := hTree.height_add_one hSecond
    rw [ancestry, hFirstLine, List.length_cons,
      hAboveLength] at hFirstLength
    by_cases hSame : first.hash = second.hash
    · have hEq := hGrown.key_injective hFirst hSecond hSame
      subst hEq
      refine ⟨first, hFirst, ?_⟩
      simp [ancestry, hFirstLine, stepBack]
    · cases hOther : second.parent with
      | none =>
          have hSecondLine :=
            hGrown.lineage_root hSecond hOther
          rw [ancestry, hSecondLine, List.length_singleton,
            ← hHeight] at hSecondLength
          omega
      | some beside =>
          have hSecondLine :=
            hGrown.lineage_step hSecond hOther
          rcases hGrown.exists_parent hSecond hOther with
            ⟨other, hMem, rfl⟩
          have hOtherLength := hTree.height_add_one hMem
          rw [ancestry, hSecondLine, List.length_cons,
            hOtherLength, ← hHeight] at hSecondLength
          have hLevel : above.height = other.height := by
            apply UInt32.toNat_inj.mp
            omega
          rcases ih hMem hLevel with
            ⟨fork, hFork, hPoint, hDown, hUp⟩
          refine ⟨fork, hFork, ?_⟩
          simp only [ancestry, hFirstLine, hSecondLine,
            stepBack, if_neg hSame]
          exact ⟨hPoint, by rw [List.cons_append, ← hDown],
            by rw [List.cons_append, ← hUp]⟩

/-
  The walks bring both blocks to one height, and the plan
  steps back from there.
-/
theorem planChainSwitch_levels
    (hTree : TreeOk c params tree)
    {start target : Link}
    (hStart : start ∈ tree)
    (hTarget : target ∈ tree) :
    ∃ older ∈ tree, ∃ newer ∈ tree,
      older.height = newer.height ∧
        (ancestry tree start.hash).dropWhile
            (fun link => decide (link.height > target.height)) =
          ancestry tree older.hash ∧
        (ancestry tree target.hash).dropWhile
            (fun link => decide (link.height > older.height)) =
          ancestry tree newer.hash ∧
        planChainSwitch (ancestry tree start.hash)
            (ancestry tree target.hash) =
          { forkPoint :=
              (stepBack (ancestry tree older.hash)
                (ancestry tree newer.hash)).forkPoint
            disconnect :=
              (ancestry tree start.hash).takeWhile
                  (fun link =>
                    decide (link.height > target.height)) ++
                (stepBack (ancestry tree older.hash)
                  (ancestry tree newer.hash)).disconnect
            connect :=
              ((ancestry tree target.hash).takeWhile
                  (fun link =>
                    decide (link.height > older.height)) ++
                (stepBack (ancestry tree older.hash)
                  (ancestry tree newer.hash)).connect
                ).reverse } := by
  have hGrown := hTree.grown
  obtain ⟨rest, hLine⟩ :
      ∃ rest, ancestry tree target.hash = target :: rest :=
    hGrown.exists_lineage_eq_cons hTarget
  rcases dropWhile_ancestry hTree target.height hStart with
    ⟨older, hOlder, hOlderLine, hLow, hExact⟩
  rcases dropWhile_ancestry hTree older.height hTarget with
    ⟨newer, hNewer, hNewerLine, hNewerLow, hNewerExact⟩
  have hLevel : older.height = newer.height := by
    rcases UInt32.le_total target.height start.height with
      hLe | hLe
    · have hSame := hExact hLe
      rw [hNewerLow (by rw [hSame]; exact UInt32.le_refl _),
        hSame]
    · rw [hNewerExact (by rw [hLow hLe]; exact hLe)]
  have hAbove :
      isAbove (ancestry tree older.hash) =
        fun link => decide (link.height > older.height) := by
    rcases hGrown.exists_lineage_eq_cons hOlder with
      ⟨tail, hOlderCons⟩
    funext link
    rw [ancestry, hOlderCons, isAbove]
  refine ⟨older, hOlder, newer, hNewer, hLevel, hOlderLine,
    hNewerLine, ?_⟩
  generalize ancestry tree target.hash = toLine
    at hLine hNewerLine
  subst hLine
  unfold planChainSwitch
  simp only [hOlderLine, hAbove, hNewerLine]

/-
  The plan leads from one block down to a common ancestor
  and up to the other.
-/
theorem planChainSwitch_spec
    (hTree : TreeOk c params tree)
    {start target : Link}
    (hStart : start ∈ tree)
    (hTarget : target ∈ tree) :
    let plan := planChainSwitch (ancestry tree start.hash)
      (ancestry tree target.hash)
    ∃ fork ∈ tree,
      plan.forkPoint = some fork ∧
        ancestry tree start.hash =
          plan.disconnect ++ ancestry tree fork.hash ∧
        ancestry tree target.hash =
          plan.connect.reverse ++
            ancestry tree fork.hash := by
  rcases planChainSwitch_levels hTree hStart hTarget with
    ⟨older, hOlder, newer, hNewer, hLevel, hOlderLine,
      hNewerLine, hPlan⟩
  rcases stepBack_spec hTree hOlder hNewer hLevel with
    ⟨fork, hFork, hPoint, hDown, hUp⟩
  refine ⟨fork, hFork, ?_⟩
  rw [hPlan]
  refine ⟨hPoint, ?_, ?_⟩
  · rw [List.append_assoc, ← hDown, ← hOlderLine,
      List.takeWhile_append_dropWhile]
  · rw [List.reverse_reverse, List.append_assoc, ← hUp,
      ← hNewerLine, List.takeWhile_append_dropWhile]

end Amarian
