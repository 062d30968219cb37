import Amarian.Chain.RulingOut
import Amarian.Chain.Replay
import Amarian.Chain.Selection
import Mathlib.Data.List.Induction
import Mathlib.Data.List.TakeWhile

/-
  Paths through the tree, and how far up a branch the stored
  bodies reach.

  Key definitions include:
    * `Climb`
    * `complete`
    * `attain`

  Key theorems include:
    * `Climb.ancestry_eq`
    * `climb_of_ancestry`
    * `attain_of_climb`
    * `attain_takeWhile`
-/

------------------------------------------------------------
-- Climbing
------------------------------------------------------------

namespace Amarian

/- A path from child to child, the last block included. -/
inductive Climb
    (tree : List Link) :
    Link → List Link → Link → Prop
  | here
      {link : Link} :
      Climb tree link [] link
  | up
      {link child top : Link}
      {rest : List Link}
      (hChild : child ∈ tree)
      (hParent : child.parent = some link.hash)
      (hRest : Climb tree child rest top) :
      Climb tree link (child :: rest) top

variable {c : Crypto} {params : ChainParams}
variable {tree : List Link}

namespace Climb

theorem top_mem
    {bottom top : Link}
    {path : List Link}
    (hClimb : Climb tree bottom path top)
    (hBottom : bottom ∈ tree) :
    top ∈ tree := by
  induction hClimb with
  | here => exact hBottom
  | up hChild hParent hRest ih => exact ih hChild

theorem append
    {bottom middle top : Link}
    {path rest : List Link}
    (hClimb : Climb tree bottom path middle)
    (hRest : Climb tree middle rest top) :
    Climb tree bottom (path ++ rest) top := by
  induction hClimb with
  | here => exact hRest
  | up hChild hParent hUp ih =>
      exact .up hChild hParent (ih hRest)

/- A path can be left where its list is cut. -/
theorem split
    {bottom top : Link}
    {path rest : List Link}
    (hClimb : Climb tree bottom (path ++ rest) top) :
    Climb tree bottom path
        (path.getLast?.getD bottom) ∧
      Climb tree (path.getLast?.getD bottom) rest top := by
  induction path generalizing bottom with
  | nil => exact ⟨.here, hClimb⟩
  | cons child path ih =>
      cases hClimb with
      | up hChild hParent hUp =>
          rcases ih hUp with ⟨hFirst, hSecond⟩
          rw [show (child :: path).getLast?.getD bottom =
            path.getLast?.getD child by
              simp [List.getLast?_cons]]
          exact ⟨.up hChild hParent hFirst, hSecond⟩

theorem ancestry_eq
    (hTree : TreeOk c params tree)
    {bottom top : Link}
    {path : List Link}
    (hClimb : Climb tree bottom path top) :
    ancestry tree top.hash =
      path.reverse ++ ancestry tree bottom.hash := by
  induction hClimb with
  | here => rfl
  | up hChild hParent hRest ih =>
      rw [ih, ancestry, hTree.grown.lineage_step hChild
        hParent, List.reverse_cons, List.append_assoc,
        List.singleton_append]

/- Every block of a path has the path's first one below. -/
theorem head_mem_ancestry
    (hTree : TreeOk c params tree)
    {bottom top next link : Link}
    {rest : List Link}
    (hClimb : Climb tree bottom (next :: rest) top)
    (hLink : link ∈ next :: rest) :
    next ∈ ancestry tree link.hash := by
  rcases List.append_of_mem hLink with ⟨before, after, hCut⟩
  rw [hCut, ← List.singleton_append, ← List.append_assoc]
    at hClimb
  have hReached := hClimb.split.1
  rw [List.getLast?_concat, Option.getD_some] at hReached
  rw [hReached.ancestry_eq hTree, List.mem_append,
    List.mem_reverse]
  left
  cases before with
  | nil =>
      rw [List.nil_append] at hCut
      rw [(List.cons.inj hCut).1]
      simp
  | cons first before =>
      rw [List.cons_append] at hCut
      rw [(List.cons.inj hCut).1]
      simp

end Climb

/- A line of ancestors, read from the bottom, is a path. -/
theorem climb_of_ancestry
    (hTree : TreeOk c params tree)
    {bottom top : Link}
    {path : List Link}
    (hBottom : bottom ∈ tree)
    (hTop : top ∈ tree)
    (hLine :
      ancestry tree top.hash =
        path.reverse ++ ancestry tree bottom.hash) :
    Climb tree bottom path top := by
  have hGrown := hTree.grown
  rcases hGrown.exists_lineage_eq_cons hBottom with
    ⟨above, hAbove⟩
  -- The list is taken apart at its end: that is the top.
  induction path using List.reverseRecOn generalizing top with
  | nil =>
      rcases hGrown.exists_lineage_eq_cons hTop with
        ⟨rest, hRest⟩
      rw [ancestry, hRest, ancestry, hAbove] at hLine
      rw [(List.cons.inj hLine).1]
      exact .here
  | append_singleton path last ih =>
      rw [List.reverse_append, List.reverse_singleton,
        List.singleton_append, List.cons_append] at hLine
      cases hParent : top.parent with
      | none =>
          have hAlone := hGrown.lineage_root hTop hParent
          rw [ancestry, hAlone, ancestry, hAbove] at hLine
          simp at hLine
      | some parent =>
          rcases hGrown.exists_parent hTop hParent with
            ⟨next, hNext, rfl⟩
          rw [ancestry,
            hGrown.lineage_step hTop hParent] at hLine
          rcases List.cons.inj hLine with ⟨rfl, hRest⟩
          exact (ih hNext hRest).append
            (.up hTop hParent .here)

------------------------------------------------------------
-- Stored Branches
------------------------------------------------------------

section Stored

variable (tree : List Link)
variable (blocks : Hash256 → Option Block)

/- Genesis is seeded, so it needs no body. -/
def isStoredLink
    (link : Link) : Bool :=
  link.parent.isNone || (blocks link.hash).isSome

/- Every block from genesis up to this one has a body. -/
def complete
    (hash : Hash256) : Bool :=
  (ancestry tree hash).all (isStoredLink blocks)

/- The highest block of a branch that is complete. -/
def attain
    (hash : Hash256) : Option Link :=
  (ancestry tree hash).find?
    fun link => complete tree blocks link.hash

end Stored

variable {blocks : Hash256 → Option Block}

theorem attain_mem
    {target : Hash256}
    {top : Link}
    (hAttain : attain tree blocks target = some top) :
    top ∈ ancestry tree target :=
  List.mem_of_find?_eq_some hAttain

theorem complete_of_replay
    (hTree : TreeOk c params tree)
    {link : Link}
    {coins : Utxo}
    (hLink : link ∈ tree)
    (hReplay :
      replay c params blocks (branch tree link.hash) =
        some coins) :
    complete tree blocks link.hash = true := by
  have hGrown := hTree.grown
  revert coins
  refine hGrown.ancestor_induction
    (motive := fun link =>
      ∀ {coins : Utxo},
        replay c params blocks (branch tree link.hash) =
            some coins →
          complete tree blocks link.hash = true)
    ?_ ?_ link hLink
  · intro root hRoot hNone coins hReplay
    rw [complete, ancestry, hGrown.lineage_root hRoot hNone]
    simp [isStoredLink, hNone]
  · intro link hLink above hAbove hParent ih coins hReplay
    rcases hTree.exists_branch_eq_cons hAbove with
      ⟨below, hCons⟩
    rw [hTree.branch_step hLink hParent, hCons] at hReplay
    rcases replay_cons.mp hReplay with
      ⟨before, block, result, hBefore, hBlock, -⟩
    rw [← hCons] at hBefore
    rw [complete, ancestry,
      hGrown.lineage_step hLink hParent, List.all_cons,
      Bool.and_eq_true]
    refine ⟨?_, ih hBefore⟩
    simp [isStoredLink, hBlock]

/-
  The highest complete block, reached by a path whose next
  step would have no body.
-/
theorem attain_of_climb
    (hTree : TreeOk c params tree)
    {middle top : Link}
    {rest : List Link}
    (hMiddle : middle ∈ tree)
    (hClimb : Climb tree middle rest top)
    (hComplete : complete tree blocks middle.hash = true)
    (hNext :
      ∀ next ∈ rest.head?, isStoredLink blocks next = false) :
    attain tree blocks top.hash = some middle := by
  have hLine := hClimb.ancestry_eq hTree
  rw [attain, hLine, List.find?_append]
  have hNone :
      rest.reverse.find?
          (fun link => complete tree blocks link.hash) =
        none := by
    rw [List.find?_eq_none]
    intro link hLink
    rw [List.mem_reverse] at hLink
    cases rest with
    | nil => cases hLink
    | cons next rest =>
        have hMissing := hNext next rfl
        have hBelow := hClimb.head_mem_ancestry hTree hLink
        intro hAll
        rw [complete, List.all_eq_true] at hAll
        rw [hAll next hBelow] at hMissing
        cases hMissing
  rw [hNone, Option.none_or]
  rcases hTree.grown.exists_lineage_eq_cons hMiddle with
    ⟨below, hCons⟩
  rw [ancestry, hCons, List.find?_cons]
  simp [hComplete]

/- Where the walk along the plan stops is the attainable. -/
theorem attain_takeWhile
    (hTree : TreeOk c params tree)
    {fork target : Link}
    {links : List Link}
    (hFork : fork ∈ tree)
    (hClimb : Climb tree fork links target)
    (hComplete : complete tree blocks fork.hash = true) :
    let path := links.takeWhile
      fun link => (blocks link.hash).isSome
    Climb tree fork path (path.getLast?.getD fork) ∧
      attain tree blocks target.hash =
        some (path.getLast?.getD fork) := by
  intro path
  have hCut :
      path ++ links.dropWhile
          (fun link => (blocks link.hash).isSome) =
        links :=
    List.takeWhile_append_dropWhile
  rw [← hCut] at hClimb
  rcases hClimb.split with ⟨hFirst, hSecond⟩
  have hMiddle := hFirst.top_mem hFork
  refine ⟨hFirst, attain_of_climb hTree hMiddle hSecond ?_ ?_⟩
  · rw [complete, hFirst.ancestry_eq hTree, List.all_append,
      Bool.and_eq_true]
    refine ⟨?_, hComplete⟩
    rw [List.all_reverse, List.all_eq_true]
    intro link hLink
    have hHeld := List.mem_takeWhile_imp hLink
    simp [isStoredLink, hHeld]
  · intro next hNext
    have hAbsent := List.head?_dropWhile_not
      (fun link : Link => (blocks link.hash).isSome) links
    rw [Option.mem_def] at hNext
    rw [hNext] at hAbsent
    have hParent : next.parent.isNone = false := by
      cases hRest : links.dropWhile
          (fun link => (blocks link.hash).isSome) with
      | nil => simp [hRest] at hNext
      | cons first rest =>
          rw [hRest] at hNext hSecond
          cases hNext
          cases hSecond with
          | up hChild hAbove hUp => simp [hAbove]
    simp only [isStoredLink, hParent, Bool.false_or]
    simpa using hAbsent

end Amarian
