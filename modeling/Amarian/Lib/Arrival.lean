import Mathlib.Data.List.Nodup
import Mathlib.Tactic.Common

/-
  Trees that grow by arrival.

  The nodes of a tree are listed newest first.  A node
  names its parent by key, and a parent is always older
  than its children, so the line of ancestors of a node is
  found by one walk down the list.

  Key definitions include:
    * `Arrival.lineage`
    * `Arrival.Grown`

  Key theorems include:
    * `Arrival.Grown.lineage_step`
    * `Arrival.Grown.ancestor_induction`
    * `Arrival.Grown.lineage_suffix`
-/

namespace Arrival

variable {ν κ : Type} [DecidableEq κ]

/- A node and its ancestors, the node itself first. -/
def lineage
    (key : ν → κ)
    (parent : ν → Option κ) : List ν → κ → List ν
  | [], _ => []
  | node :: older, wanted =>
      if key node = wanted then
        node ::
          (match parent node with
          | none => []
          | some above => lineage key parent older above)
      else
        lineage key parent older wanted

/-
  A root, and then nodes with fresh keys, each below a node
  that was there before it.
-/
inductive Grown
    (key : ν → κ)
    (parent : ν → Option κ) : List ν → Prop
  | root
      {node : ν}
      (hRoot : parent node = none) :
      Grown key parent [node]
  | add
      {node above : ν}
      {older : List ν}
      (hOlder : Grown key parent older)
      (hFresh : ∀ other ∈ older, key other ≠ key node)
      (hAbove : above ∈ older)
      (hParent : parent node = some (key above)) :
      Grown key parent (node :: older)

variable {key : ν → κ} {parent : ν → Option κ}
variable {nodes : List ν}

------------------------------------------------------------
-- Lineages
------------------------------------------------------------

theorem lineage_cons_of_ne
    {node : ν}
    {wanted : κ}
    (hNe : key node ≠ wanted) :
    lineage key parent (node :: nodes) wanted =
      lineage key parent nodes wanted := by
  rw [lineage, if_neg hNe]

theorem lineage_sublist
    (nodes : List ν)
    (wanted : κ) :
    (lineage key parent nodes wanted).Sublist nodes := by
  induction nodes generalizing wanted with
  | nil => exact List.Sublist.refl []
  | cons node older ih =>
      unfold lineage
      split
      · apply List.Sublist.cons_cons
        split
        · exact List.nil_sublist older
        · exact ih _
      · exact (ih wanted).cons node

theorem mem_of_mem_lineage
    {node : ν}
    {wanted : κ}
    (hNode : node ∈ lineage key parent nodes wanted) :
    node ∈ nodes :=
  (lineage_sublist nodes wanted).subset hNode

namespace Grown

omit [DecidableEq κ] in
theorem key_injective
    (hGrown : Grown key parent nodes)
    {first second : ν}
    (hFirst : first ∈ nodes)
    (hSecond : second ∈ nodes)
    (hKey : key first = key second) :
    first = second := by
  induction hGrown with
  | root hRoot =>
      rw [List.mem_singleton] at hFirst hSecond
      rw [hFirst, hSecond]
  | add hOlder hFresh hAbove hParent ih =>
      rcases List.mem_cons.mp hFirst with hNew | hOld
      · rcases List.mem_cons.mp hSecond with hToo | hOther
        · rw [hNew, hToo]
        · rw [hNew] at hKey
          exact absurd hKey.symm (hFresh second hOther)
      · rcases List.mem_cons.mp hSecond with hNew | hOther
        · rw [hNew] at hKey
          exact absurd hKey (hFresh first hOld)
        · exact ih hOld hOther

/- Walking past newer nodes does not change a lineage. -/
theorem lineage_cons_of_mem
    {node : ν}
    {wanted : κ}
    (hFresh : ∀ other ∈ nodes, key other ≠ key node)
    (hFound : ∃ other ∈ nodes, key other = wanted) :
    lineage key parent (node :: nodes) wanted =
      lineage key parent nodes wanted := by
  rcases hFound with ⟨other, hOther, rfl⟩
  exact lineage_cons_of_ne (hFresh other hOther).symm

theorem lineage_root
    (hGrown : Grown key parent nodes)
    {node : ν}
    (hNode : node ∈ nodes)
    (hRoot : parent node = none) :
    lineage key parent nodes (key node) = [node] := by
  induction hGrown with
  | root =>
      rw [List.mem_singleton] at hNode
      subst hNode
      simp [lineage, hRoot]
  | add hOlder hFresh hAbove hParent ih =>
      rcases List.mem_cons.mp hNode with rfl | hNode
      · simp [hRoot] at hParent
      · rw [lineage_cons_of_mem hFresh ⟨node, hNode, rfl⟩]
        exact ih hNode

omit [DecidableEq κ] in
theorem exists_parent
    (hGrown : Grown key parent nodes)
    {node : ν}
    {above : κ}
    (hNode : node ∈ nodes)
    (hParent : parent node = some above) :
    ∃ other ∈ nodes, key other = above := by
  induction hGrown with
  | root hRoot =>
      rw [List.mem_singleton] at hNode
      subst hNode
      simp [hRoot] at hParent
  | add hOlder hFresh hAbove hHere ih =>
      rcases List.mem_cons.mp hNode with rfl | hNode
      · rw [hHere, Option.some_inj] at hParent
        exact ⟨_, List.mem_cons_of_mem _ hAbove, hParent⟩
      · rcases ih hNode with ⟨other, hOther, hKey⟩
        exact ⟨other, List.mem_cons_of_mem _ hOther, hKey⟩

theorem lineage_step
    (hGrown : Grown key parent nodes)
    {node : ν}
    {above : κ}
    (hNode : node ∈ nodes)
    (hParent : parent node = some above) :
    lineage key parent nodes (key node) =
      node :: lineage key parent nodes above := by
  induction hGrown with
  | root hRoot =>
      rw [List.mem_singleton] at hNode
      subst hNode
      simp [hRoot] at hParent
  | @add newest above' older hOlder hFresh hAbove hHere ih =>
      rcases List.mem_cons.mp hNode with rfl | hNode
      · have hSame := hParent
        rw [hHere, Option.some_inj] at hSame
        have hSkip :
            lineage key parent (node :: older) above =
              lineage key parent older above :=
          lineage_cons_of_mem hFresh ⟨_, hAbove, hSame⟩
        rw [hSkip]
        simp [lineage, hParent]
      · rw [lineage_cons_of_mem hFresh ⟨node, hNode, rfl⟩,
          lineage_cons_of_mem hFresh
            (hOlder.exists_parent hNode hParent)]
        exact ih hNode

omit [DecidableEq κ] in
theorem root_unique
    (hGrown : Grown key parent nodes)
    {first second : ν}
    (hFirst : first ∈ nodes)
    (hSecond : second ∈ nodes)
    (hFirstRoot : parent first = none)
    (hSecondRoot : parent second = none) :
    first = second := by
  induction hGrown with
  | root hRoot =>
      rw [List.mem_singleton] at hFirst hSecond
      rw [hFirst, hSecond]
  | add hOlder hFresh hAbove hParent ih =>
      rcases List.mem_cons.mp hFirst with rfl | hFirst
      · simp [hFirstRoot] at hParent
      · rcases List.mem_cons.mp hSecond with rfl | hSecond
        · simp [hSecondRoot] at hParent
        · exact ih hFirst hSecond

/- What holds of the root and passes from parent to child. -/
omit [DecidableEq κ] in
theorem ancestor_induction
    {motive : ν → Prop}
    (hGrown : Grown key parent nodes)
    (hRoot :
      ∀ node ∈ nodes, parent node = none → motive node)
    (hStep :
      ∀ node ∈ nodes, ∀ above ∈ nodes,
        parent node = some (key above) →
          motive above → motive node) :
    ∀ node ∈ nodes, motive node := by
  induction hGrown with
  | root hNone =>
      intro node hNode
      refine hRoot node hNode ?_
      rw [List.mem_singleton] at hNode
      rw [hNode, hNone]
  | @add newest above older hOlder hFresh hAbove hParent ih =>
      have hRest : ∀ node ∈ older, motive node := by
        apply ih
        · intro node hNode
          exact hRoot node (List.mem_cons_of_mem _ hNode)
        · intro node hNode other hOther
          exact hStep node (List.mem_cons_of_mem _ hNode)
            other (List.mem_cons_of_mem _ hOther)
      intro node hNode
      rcases List.mem_cons.mp hNode with rfl | hNode
      · exact hStep node (List.mem_cons_self ..) above
          (List.mem_cons_of_mem _ hAbove) hParent
          (hRest above hAbove)
      · exact hRest node hNode

/- A lineage starts with the node it belongs to. -/
theorem exists_lineage_eq_cons
    (hGrown : Grown key parent nodes)
    {node : ν}
    (hNode : node ∈ nodes) :
    ∃ rest,
      lineage key parent nodes (key node) = node :: rest := by
  cases hParent : parent node with
  | none => exact ⟨[], hGrown.lineage_root hNode hParent⟩
  | some above =>
      exact ⟨_, hGrown.lineage_step hNode hParent⟩

theorem self_mem_lineage
    (hGrown : Grown key parent nodes)
    {node : ν}
    (hNode : node ∈ nodes) :
    node ∈ lineage key parent nodes (key node) := by
  rcases hGrown.exists_lineage_eq_cons hNode with ⟨rest, hLine⟩
  rw [hLine]
  exact List.mem_cons_self ..

/- An ancestor's lineage is the end of the lineage. -/
theorem lineage_suffix
    (hGrown : Grown key parent nodes)
    {node : ν}
    (hNode : node ∈ nodes) :
    ∀ ancestor ∈ lineage key parent nodes (key node),
      lineage key parent nodes (key ancestor) <:+
        lineage key parent nodes (key node) := by
  refine hGrown.ancestor_induction
    (motive := fun node =>
      ∀ ancestor ∈ lineage key parent nodes (key node),
        lineage key parent nodes (key ancestor) <:+
          lineage key parent nodes (key node))
    ?_ ?_ node hNode
  · intro node hNode hNone ancestor hAncestor
    rw [hGrown.lineage_root hNode hNone,
      List.mem_singleton] at hAncestor
    exact hAncestor ▸ List.suffix_refl _
  · intro node hNode above hAbove hParent ih ancestor
      hAncestor
    rw [hGrown.lineage_step hNode hParent] at hAncestor ⊢
    rcases List.mem_cons.mp hAncestor with rfl | hAncestor
    · exact hGrown.lineage_step hNode hParent ▸
        List.suffix_refl _
    · exact (ih ancestor hAncestor).trans
        (List.suffix_cons _ _)

theorem mem_lineage_trans
    (hGrown : Grown key parent nodes)
    {node middle ancestor : ν}
    (hNode : node ∈ nodes)
    (hMiddle :
      middle ∈ lineage key parent nodes (key node))
    (hAncestor :
      ancestor ∈ lineage key parent nodes (key middle)) :
    ancestor ∈ lineage key parent nodes (key node) :=
  (hGrown.lineage_suffix hNode middle hMiddle).subset
    hAncestor

end Grown

end Arrival
