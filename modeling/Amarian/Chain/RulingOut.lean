import Amarian.Chain.Tree
import Mathlib.Data.List.Count

/-
  Ruling a block out reaches exactly the blocks above it.

  The source walks the subtree with an explicit frontier.
  Here its outcome is written as one rule about the line of
  ancestors of each entry.

  Key definitions include:
    * `ruleOut`
    * `Closed`

  Key theorems include:
    * `markDescendants_eq`
-/

------------------------------------------------------------
-- Entries By Hash
------------------------------------------------------------

namespace Amarian

theorem findEntry_eq_some
    {entries : List BlockIndexEntry}
    {hash : Hash256}
    {entry : BlockIndexEntry}
    (hFound : findEntry entries hash = some entry) :
    entry ∈ entries ∧ entry.hash = hash := by
  refine ⟨List.mem_of_find?_eq_some hFound, ?_⟩
  simpa using List.find?_some hFound

theorem findEntry_map
    (change : BlockIndexEntry → BlockIndexEntry)
    (hChange : ∀ entry, (change entry).hash = entry.hash)
    (entries : List BlockIndexEntry)
    (hash : Hash256) :
    findEntry (entries.map change) hash =
      (findEntry entries hash).map change := by
  unfold findEntry
  rw [List.find?_map]
  congr 2
  funext entry
  simp [hChange]

section Marking

variable {c : Crypto} {params : ChainParams}
variable {entries : List BlockIndexEntry}

/- The links of a list of entries. -/
abbrev linksOf
    (entries : List BlockIndexEntry) : List Link :=
  entries.map BlockIndexEntry.toLink

theorem entry_injective
    (hTree : TreeOk c params (linksOf entries))
    {first second : BlockIndexEntry}
    (hFirst : first ∈ entries)
    (hSecond : second ∈ entries)
    (hHash : first.hash = second.hash) :
    first = second := by
  have hNodup :
      (entries.map fun entry => entry.hash).Nodup := by
    have hGrown := hTree.grown
    clear hFirst hSecond hTree
    generalize hLinks : linksOf entries = links at hGrown
    induction hGrown generalizing entries with
    | root =>
        rw [List.map_eq_singleton_iff] at hLinks
        rcases hLinks with ⟨entry, rfl, -⟩
        simp
    | add hOlder hFresh hAbove hParent ih =>
        rw [List.map_eq_cons_iff] at hLinks
        rcases hLinks with ⟨entry, rest, rfl, rfl, rfl⟩
        rw [List.map_cons, List.nodup_cons]
        refine ⟨?_, ih rfl⟩
        intro hMem
        rcases List.mem_map.mp hMem with ⟨other, hOther, hSame⟩
        exact hFresh other.toLink
          (List.mem_map_of_mem hOther) hSame
  exact List.inj_on_of_nodup_map hNodup hFirst hSecond hHash

theorem findEntry_of_mem
    (hTree : TreeOk c params (linksOf entries))
    {entry : BlockIndexEntry}
    (hEntry : entry ∈ entries) :
    findEntry entries entry.hash = some entry := by
  cases hFound : findEntry entries entry.hash with
  | none =>
      have hNone := List.find?_eq_none.mp hFound entry hEntry
      simp at hNone
  | some other =>
      rcases findEntry_eq_some hFound with ⟨hOther, hHash⟩
      rw [entry_injective hTree hOther hEntry hHash]

------------------------------------------------------------
-- Marked Entries
------------------------------------------------------------

/- The entries with those of `marked` ruled out. -/
def markAll
    (marked : List Hash256)
    (entries : List BlockIndexEntry) :
    List BlockIndexEntry :=
  entries.map fun entry =>
    if entry.hash ∈ marked then
      { entry with failure := .ancestor }
    else
      entry

theorem markAll_nil
    (entries : List BlockIndexEntry) :
    markAll [] entries = entries := by
  simp [markAll]

theorem setFailure_markAll
    (marked : List Hash256)
    (entries : List BlockIndexEntry)
    (hash : Hash256) :
    setFailure (markAll marked entries) hash .ancestor =
      markAll (hash :: marked) entries := by
  unfold setFailure markAll
  rw [List.map_map]
  apply List.map_congr_left
  intro entry hEntry
  simp only [Function.comp_apply, List.mem_cons]
  by_cases hHash : entry.hash = hash
  · subst hHash
    by_cases hMarked : entry.hash ∈ marked <;>
      simp [hMarked]
  · by_cases hMarked : entry.hash ∈ marked <;>
      simp [hMarked, hHash]

/- The hash names an entry that is not ruled out. -/
def IsOpen
    (entries : List BlockIndexEntry)
    (hash : Hash256) : Prop :=
  ∃ entry,
    findEntry entries hash = some entry ∧
      entry.isEligible = true

theorem findEntry_markAll
    (marked : List Hash256)
    (entries : List BlockIndexEntry)
    (hash : Hash256) :
    findEntry (markAll marked entries) hash =
      (findEntry entries hash).map fun entry =>
        if entry.hash ∈ marked then
          { entry with failure := .ancestor }
        else
          entry := by
  apply findEntry_map
  intro entry
  split <;> rfl

/- How many entries may still become the tip. -/
def openCount
    (entries : List BlockIndexEntry) : Nat :=
  entries.countP BlockIndexEntry.isEligible

theorem countP_lt_of_mem
    {α : Type}
    {less more : α → Bool}
    {items : List α}
    {item : α}
    (hItem : item ∈ items)
    (hLess :
      ∀ other ∈ items,
        less other = true → more other = true)
    (hOut : less item = false)
    (hIn : more item = true) :
    items.countP less < items.countP more := by
  rcases List.append_of_mem hItem with ⟨front, back, rfl⟩
  have hFront := List.countP_mono_left
    fun other hOther => hLess other
      (List.mem_append_left _ hOther)
  have hBack := List.countP_mono_left
    fun other hOther => hLess other
      (List.mem_append_right _ (List.mem_cons_of_mem _ hOther))
  simp only [List.countP_append, List.countP_cons, hOut, hIn,
    if_true, Bool.false_eq_true, if_false]
  omega

/- Marking one more open entry leaves fewer of them. -/
theorem openCount_markAll_cons
    {marked : List Hash256}
    {hash : Hash256}
    (hOpen : IsOpen entries hash)
    (hFresh : hash ∉ marked) :
    openCount (markAll (hash :: marked) entries) + 1 ≤
      openCount (markAll marked entries) := by
  rcases hOpen with ⟨entry, hFound, hEligible⟩
  rcases findEntry_eq_some hFound with ⟨hEntry, hHash⟩
  rw [← setFailure_markAll]
  have hMarkedEntry :
      entry ∈ markAll marked entries := by
    refine List.mem_map.mpr ⟨entry, hEntry, ?_⟩
    rw [hHash, if_neg hFresh]
  generalize markAll marked entries = others at hMarkedEntry
  unfold setFailure openCount
  rw [List.countP_map]
  refine Nat.succ_le_of_lt
    (countP_lt_of_mem hMarkedEntry ?_ ?_ hEligible)
  · intro other _ hOther
    simp only [Function.comp_apply] at hOther
    split at hOther
    · simp [BlockIndexEntry.isEligible] at hOther
    · exact hOther
  · simp [BlockIndexEntry.isEligible, hHash]

------------------------------------------------------------
-- One Expansion
------------------------------------------------------------

theorem visitChild_of_open
    {marked frontier : List Hash256}
    {child : Hash256}
    (hOpen : IsOpen entries child)
    (hFresh : child ∉ marked) :
    visitChild (frontier, markAll marked entries) child =
      (child :: frontier,
        markAll (child :: marked) entries) := by
  rcases hOpen with ⟨entry, hFound, hEligible⟩
  rcases findEntry_eq_some hFound with ⟨-, hHash⟩
  have hNotMarked : entry.hash ∉ marked := by
    rw [hHash]
    exact hFresh
  simp only [visitChild, findEntry_markAll, hFound,
    Option.map_some, if_neg hNotMarked, hEligible, if_true,
    setFailure_markAll]

theorem visitChild_of_settled
    {marked frontier : List Hash256}
    {child : Hash256}
    (hSettled : child ∈ marked ∨ ¬IsOpen entries child) :
    visitChild (frontier, markAll marked entries) child =
      (frontier, markAll marked entries) := by
  simp only [visitChild, findEntry_markAll]
  cases hFound : findEntry entries child with
  | none => rfl
  | some entry =>
      rcases findEntry_eq_some hFound with ⟨-, hHash⟩
      rcases hSettled with hMarked | hNot
      · rw [← hHash] at hMarked
        simp [hMarked, BlockIndexEntry.isEligible]
      · have hIneligible : entry.isEligible = false := by
          rw [← Bool.not_eq_true]
          intro hEligible
          exact hNot ⟨entry, hFound, hEligible⟩
        by_cases hMarked : entry.hash ∈ marked
        · simp [hMarked, BlockIndexEntry.isEligible]
        · simp [hMarked, hIneligible]

/-
  Expanding an entry marks those of its children that are
  still open and puts them on the frontier.
-/
theorem foldl_visitChild
    (entries : List BlockIndexEntry)
    (children marked frontier : List Hash256) :
    ∃ fresh : List Hash256,
      children.foldl visitChild
          (frontier, markAll marked entries) =
        (fresh ++ frontier,
          markAll (fresh ++ marked) entries) ∧
      (∀ hash ∈ fresh,
        hash ∈ children ∧ IsOpen entries hash) ∧
      (∀ hash ∈ children,
        hash ∈ fresh ++ marked ∨ ¬IsOpen entries hash) ∧
      openCount (markAll (fresh ++ marked) entries) +
          fresh.length ≤
        openCount (markAll marked entries) := by
  induction children generalizing marked frontier with
  | nil => exact ⟨[], by simp⟩
  | cons child children ih =>
      rw [List.foldl_cons]
      by_cases hSettled :
          child ∈ marked ∨ ¬IsOpen entries child
      · rw [visitChild_of_settled hSettled]
        rcases ih marked frontier with
          ⟨fresh, hFold, hFresh, hDone, hCount⟩
        refine ⟨fresh, hFold, ?_, ?_, hCount⟩
        · intro hash hHash
          exact ⟨List.mem_cons_of_mem _ (hFresh hash hHash).1,
            (hFresh hash hHash).2⟩
        · intro hash hHash
          rcases List.mem_cons.mp hHash with rfl | hHash
          · exact hSettled.imp_left
              (List.mem_append_right fresh)
          · exact hDone hash hHash
      · rw [not_or, not_not] at hSettled
        rcases hSettled with ⟨hNotMarked, hOpen⟩
        rw [visitChild_of_open hOpen hNotMarked]
        rcases ih (child :: marked) (child :: frontier) with
          ⟨fresh, hFold, hFresh, hDone, hCount⟩
        have hOne :=
          openCount_markAll_cons hOpen hNotMarked
        have hShift : ∀ rest : List Hash256,
            fresh ++ child :: rest =
              (fresh ++ [child]) ++ rest := by simp
        rw [hShift] at hCount
        refine ⟨fresh ++ [child], ?_, ?_, ?_, ?_⟩
        · rw [hFold, hShift frontier, hShift marked]
        · intro hash hHash
          rcases List.mem_append.mp hHash with hHash | hHash
          · exact ⟨List.mem_cons_of_mem _
              (hFresh hash hHash).1, (hFresh hash hHash).2⟩
          · rw [List.mem_singleton] at hHash
            subst hHash
            exact ⟨List.mem_cons_self .., hOpen⟩
        · intro hash hHash
          rcases List.mem_cons.mp hHash with rfl | hHash
          · left
            simp
          · rw [← hShift]
            exact hDone hash hHash
        · rw [List.length_append, List.length_singleton]
          omega

------------------------------------------------------------
-- The Whole Walk
------------------------------------------------------------

section Walk

variable (children : List (Hash256 × Hash256))
variable (entries) (root : Hash256)

/-
  What holds of the frontier and of what is marked between
  two expansions: only open blocks above the root are
  marked, and whatever is off the frontier is finished.
-/
structure Marking
    (frontier marked : List Hash256) : Prop where
  above :
    ∀ hash ∈ marked,
      IsOpen entries hash ∧
        ∃ parent,
          (parent = root ∨ parent ∈ marked) ∧
            hash ∈ childrenOf children parent
  pending :
    ∀ hash ∈ frontier, hash = root ∨ hash ∈ marked
  finished :
    ∀ parent,
      (parent = root ∨ parent ∈ marked) →
        parent ∈ frontier ∨
          ∀ hash ∈ childrenOf children parent,
            hash ∈ marked ∨ ¬IsOpen entries hash

variable {children entries root}

theorem Marking.expand
    {current : Hash256}
    {frontier marked fresh : List Hash256}
    (hMarking :
      Marking entries children root (current :: frontier)
        marked)
    (hFresh :
      ∀ hash ∈ fresh,
        hash ∈ childrenOf children current ∧
          IsOpen entries hash)
    (hDone :
      ∀ hash ∈ childrenOf children current,
        hash ∈ fresh ++ marked ∨ ¬IsOpen entries hash) :
    Marking entries children root (fresh ++ frontier)
      (fresh ++ marked) := by
  have hCurrent :=
    hMarking.pending current (List.mem_cons_self ..)
  have hWiden : ∀ {hash},
      hash = root ∨ hash ∈ marked →
        hash = root ∨ hash ∈ fresh ++ marked := fun h =>
    h.imp_right (List.mem_append_right fresh)
  refine ⟨?_, ?_, ?_⟩
  · intro hash hHash
    rcases List.mem_append.mp hHash with hNew | hOld
    · exact ⟨(hFresh hash hNew).2, current,
        hWiden hCurrent, (hFresh hash hNew).1⟩
    · rcases hMarking.above hash hOld with
        ⟨hOpen, parent, hParent, hChild⟩
      exact ⟨hOpen, parent, hWiden hParent, hChild⟩
  · intro hash hHash
    rcases List.mem_append.mp hHash with hNew | hOld
    · exact Or.inr (List.mem_append_left marked hNew)
    · exact hWiden (hMarking.pending hash
        (List.mem_cons_of_mem _ hOld))
  · intro parent hParent
    by_cases hIsCurrent : parent = current
    · right
      rw [hIsCurrent]
      exact hDone
    · have hCases :
          parent ∈ fresh ∨
            (parent = root ∨ parent ∈ marked) := by
        rcases hParent with hRoot | hMem
        · exact Or.inr (Or.inl hRoot)
        · exact (List.mem_append.mp hMem).imp_right Or.inr
      rcases hCases with hNew | hOld
      · exact Or.inl (List.mem_append_left frontier hNew)
      · rcases hMarking.finished parent hOld with
          hFrontier | hFinished
        · rcases List.mem_cons.mp hFrontier with hEq | hRest
          · exact absurd hEq hIsCurrent
          · exact Or.inl (List.mem_append_right fresh hRest)
        · right
          intro hash hHash
          exact (hFinished hash hHash).imp_left
            (List.mem_append_right fresh)

theorem markDescendants_marking
    (entries : List BlockIndexEntry)
    (fuel : Nat)
    (frontier marked : List Hash256)
    (hMarking :
      Marking entries children root frontier marked)
    (hFuel :
      openCount (markAll marked entries) +
          frontier.length ≤
        fuel) :
    ∃ final : List Hash256,
      markDescendants children fuel frontier
          (markAll marked entries) =
        markAll final entries ∧
      Marking entries children root [] final := by
  induction fuel generalizing frontier marked with
  | zero =>
      have hEmpty : frontier = [] := by
        apply List.eq_nil_of_length_eq_zero
        omega
      subst hEmpty
      exact ⟨marked, rfl, hMarking⟩
  | succ fuel ih =>
      cases frontier with
      | nil => exact ⟨marked, rfl, hMarking⟩
      | cons current frontier =>
          rcases foldl_visitChild entries
            (childrenOf children current) marked frontier with
            ⟨fresh, hFold, hFresh, hDone, hCount⟩
          rcases ih (fresh ++ frontier) (fresh ++ marked)
            (hMarking.expand hFresh hDone)
            (by
              rw [List.length_append]
              rw [List.length_cons] at hFuel
              omega) with
            ⟨final, hFinal, hMarked⟩
          refine ⟨final, ?_, hMarked⟩
          rw [markDescendants]
          simp only [hFold]
          exact hFinal

end Walk

------------------------------------------------------------
-- The Outcome
------------------------------------------------------------

/- A block above one that is ruled out is ruled out. -/
def Closed
    (entries : List BlockIndexEntry) : Prop :=
  ∀ entry ∈ entries, ∀ parent ∈ entries,
    entry.parent = some parent.hash →
      parent.isEligible = false →
        entry.isEligible = false

/- The parent links of a tree, as pairs of hashes. -/
def childPairs
    (tree : List Link) : List (Hash256 × Hash256) :=
  tree.filterMap fun link =>
    link.parent.map fun parent => (parent, link.hash)

/- The block itself, or one above it. -/
def descendsFrom
    (tree : List Link)
    (root hash : Hash256) : Bool :=
  decide (root ∈ (ancestry tree hash).map Link.hash)

/- The entry after the block `root` was ruled out. -/
def ruleOut
    (tree : List Link)
    (root : Hash256)
    (entry : BlockIndexEntry) : BlockIndexEntry :=
  if entry.isEligible &&
      descendsFrom tree root entry.hash then
    { entry with
      failure :=
        if entry.hash = root then .itself else .ancestor }
  else
    entry

theorem mem_childrenOf_childPairs
    {tree : List Link}
    {parent hash : Hash256} :
    hash ∈ childrenOf (childPairs tree) parent ↔
      ∃ link ∈ tree,
        link.parent = some parent ∧ link.hash = hash := by
  unfold childrenOf childPairs
  simp only [List.mem_map, List.mem_filter,
    List.mem_filterMap, Option.map_eq_some_iff,
    decide_eq_true_eq]
  constructor
  · rintro ⟨⟨_, _⟩, ⟨⟨link, hLink, above, hAbove, hPair⟩,
      hParent⟩, hHash⟩
    cases hPair
    exact ⟨link, hLink, by rw [hAbove, ← hParent], hHash⟩
  · rintro ⟨link, hLink, hParent, hHash⟩
    exact ⟨(parent, hash),
      ⟨⟨link, hLink, parent, hParent, by rw [hHash]⟩, rfl⟩,
      rfl⟩

section Outcome

variable {root : Hash256}

theorem isOpen_setFailure_itself
    (entries : List BlockIndexEntry)
    (root hash : Hash256) :
    IsOpen (setFailure entries root .itself) hash ↔
      hash ≠ root ∧ IsOpen entries hash := by
  unfold IsOpen setFailure
  rw [findEntry_map _ (fun entry => by split <;> rfl)]
  cases hFound : findEntry entries hash with
  | none => simp
  | some entry =>
      rcases findEntry_eq_some hFound with ⟨-, rfl⟩
      by_cases hRoot : entry.hash = root
      · simp [hRoot, BlockIndexEntry.isEligible]
      · simp [hRoot]

/- The walk's frontier starts with the root alone. -/
theorem marking_start
    (entries : List BlockIndexEntry)
    (children : List (Hash256 × Hash256))
    (root : Hash256) :
    Marking entries children root [root] [] := by
  refine ⟨by simp, by simp, ?_⟩
  intro parent hParent
  left
  simpa using hParent

theorem descendsFrom_step
    {tree : List Link}
    (hTree : TreeOk c params tree)
    {link above : Link}
    (hLink : link ∈ tree)
    (hParent : link.parent = some above.hash) :
    descendsFrom tree root link.hash = true ↔
      link.hash = root ∨
        descendsFrom tree root above.hash = true := by
  unfold descendsFrom
  rw [ancestry, hTree.grown.lineage_step hLink hParent,
    List.map_cons, decide_eq_true_eq, List.mem_cons,
    decide_eq_true_eq, eq_comm]

/- What is marked in the end lies above the root. -/
theorem Marking.descends
    {tree : List Link}
    (hTree : TreeOk c params tree)
    {final : List Hash256}
    (hMarking :
      Marking entries (childPairs tree) root [] final)
    (hRoot : ∃ link ∈ tree, link.hash = root) :
    ∀ link ∈ tree,
      link.hash ∈ final →
        descendsFrom tree root link.hash = true := by
  have hGrown := hTree.grown
  have hSelf : descendsFrom tree root root = true := by
    rcases hRoot with ⟨link, hLink, rfl⟩
    have hMem := hGrown.self_mem_lineage hLink
    exact decide_eq_true (List.mem_map_of_mem hMem)
  -- The parent that put a block on the list is its own
  -- parent, because hashes are unique in the tree.
  have hAbove : ∀ link ∈ tree, link.hash ∈ final →
      ∃ parent,
        link.parent = some parent ∧
          (parent = root ∨ parent ∈ final) := by
    intro link hLink hMarked
    rcases hMarking.above link.hash hMarked with
      ⟨-, parent, hParent, hChild⟩
    rcases mem_childrenOf_childPairs.mp hChild with
      ⟨other, hOther, hOtherParent, hHash⟩
    rw [hGrown.key_injective hOther hLink hHash]
      at hOtherParent
    exact ⟨parent, hOtherParent, hParent⟩
  refine hGrown.ancestor_induction ?_ ?_
  · intro link hLink hNone hMarked
    rcases hAbove link hLink hMarked with ⟨parent, hParent, -⟩
    simp [hNone] at hParent
  · intro link hLink above _ hParent ih hMarked
    rcases hAbove link hLink hMarked with
      ⟨parent, hSame, hCases⟩
    rw [hParent, Option.some_inj] at hSame
    rw [descendsFrom_step hTree hLink hParent]
    right
    rcases hCases with hIsRoot | hIsMarked
    · rw [hSame, hIsRoot]
      exact hSelf
    · rw [← hSame] at hIsMarked
      exact ih hIsMarked

/- Nothing above the root is left open. -/
theorem Marking.reaches
    (hTree : TreeOk c params (linksOf entries))
    (hClosed : Closed entries)
    {final : List Hash256}
    (hMarking :
      Marking (setFailure entries root .itself)
        (childPairs (linksOf entries)) root [] final) :
    ∀ link ∈ linksOf entries,
      descendsFrom (linksOf entries) root link.hash = true →
        link.hash = root ∨
          link.hash ∈ final ∨
          ¬IsOpen entries link.hash := by
  have hGrown := hTree.grown
  refine hGrown.ancestor_induction ?_ ?_
  · intro link hLink hNone hDescends
    left
    unfold descendsFrom at hDescends
    rw [ancestry, hGrown.lineage_root hLink hNone]
      at hDescends
    simpa [eq_comm] using hDescends
  · intro link hLink above hAboveMem hParent ih hDescends
    rw [descendsFrom_step hTree hLink hParent] at hDescends
    rcases hDescends with hIsRoot | hAbove
    · exact Or.inl hIsRoot
    have hFinished :
        (above.hash = root ∨ above.hash ∈ final) →
          link.hash = root ∨ link.hash ∈ final ∨
            ¬IsOpen entries link.hash := by
      intro hMarked
      rcases hMarking.finished above.hash hMarked with
        hNone | hDone
      · cases hNone
      · rcases hDone link.hash
            (mem_childrenOf_childPairs.mpr
              ⟨link, hLink, hParent, rfl⟩) with
          hIn | hNot
        · exact Or.inr (Or.inl hIn)
        · rw [isOpen_setFailure_itself] at hNot
          by_cases hIsRoot : link.hash = root
          · exact Or.inl hIsRoot
          · right
            right
            intro hOpen
            exact hNot ⟨hIsRoot, hOpen⟩
    rcases ih hAbove with hIsRoot | hIsMarked | hNot
    · exact hFinished (Or.inl hIsRoot)
    · exact hFinished (Or.inr hIsMarked)
    · right
      right
      rintro ⟨entry, hFound, hEligible⟩
      rcases findEntry_eq_some hFound with ⟨hEntry, hHash⟩
      rcases List.mem_map.mp hAboveMem with
        ⟨parent, hParentMem, hLinkEq⟩
      subst hLinkEq
      rcases List.mem_map.mp hLink with
        ⟨other, hOther, hOtherLink⟩
      subst hOtherLink
      rw [entry_injective hTree hEntry hOther hHash]
        at hEligible
      have hParentFailed : parent.isEligible = false := by
        rw [← Bool.not_eq_true]
        intro hOk
        exact hNot ⟨parent,
          findEntry_of_mem hTree hParentMem, hOk⟩
      have hFailed := hClosed other hOther parent hParentMem
        hParent hParentFailed
      rw [hFailed] at hEligible
      cases hEligible

/- The walk rules out exactly what lies above the root. -/
theorem markDescendants_eq
    (hTree : TreeOk c params (linksOf entries))
    (hClosed : Closed entries)
    {entry : BlockIndexEntry}
    (hEntry : entry ∈ entries)
    (hEligible : entry.isEligible = true) :
    markDescendants (childPairs (linksOf entries))
        (setFailure entries entry.hash .itself).length
        [entry.hash]
        (setFailure entries entry.hash .itself) =
      entries.map
        (ruleOut (linksOf entries) entry.hash) := by
  have hFound := findEntry_of_mem hTree hEntry
  rcases markDescendants_marking
    (setFailure entries entry.hash .itself)
    (setFailure entries entry.hash .itself).length
    [entry.hash] []
    (marking_start _ (childPairs (linksOf entries)) _)
    (by
      rw [markAll_nil, List.length_singleton]
      apply List.countP_lt_length_iff.mpr
      refine ⟨{ entry with failure := .itself }, ?_, rfl⟩
      refine List.mem_map.mpr ⟨entry, hEntry, ?_⟩
      rw [if_pos rfl]) with
    ⟨final, hWalk, hMarking⟩
  rw [markAll_nil] at hWalk
  rw [hWalk]
  unfold markAll setFailure
  rw [List.map_map]
  apply List.map_congr_left
  intro other hOther
  have hLink : other.toLink ∈ linksOf entries :=
    List.mem_map_of_mem hOther
  have hRootLink :
      ∃ link ∈ linksOf entries, link.hash = entry.hash :=
    ⟨entry.toLink, List.mem_map_of_mem hEntry, rfl⟩
  simp only [Function.comp_apply]
  by_cases hIsRoot : other.hash = entry.hash
  · have hSame :=
      entry_injective hTree hOther hEntry hIsRoot
    subst hSame
    have hNotMarked : other.hash ∉ final := by
      intro hMarked
      have hOpen := (hMarking.above _ hMarked).1
      rw [isOpen_setFailure_itself] at hOpen
      exact hOpen.1 rfl
    have hDescends :
        descendsFrom (linksOf entries) other.hash
          other.hash = true := by
      have hMem := hTree.grown.self_mem_lineage hLink
      exact decide_eq_true (List.mem_map_of_mem hMem)
    simp [hNotMarked, ruleOut, hEligible, hDescends]
  · rw [if_neg hIsRoot]
    by_cases hMarked : other.hash ∈ final
    · have hDescends := hMarking.descends hTree hRootLink
        other.toLink hLink hMarked
      have hOpen := (hMarking.above _ hMarked).1
      rw [isOpen_setFailure_itself] at hOpen
      rcases hOpen with ⟨-, found, hFoundOther, hOk⟩
      rw [findEntry_of_mem hTree hOther,
        Option.some_inj] at hFoundOther
      rw [← hFoundOther] at hOk
      simp [hMarked, ruleOut, hOk, hDescends, hIsRoot]
    · rw [if_neg hMarked, ruleOut, if_neg]
      intro hBoth
      rw [Bool.and_eq_true] at hBoth
      rcases hMarking.reaches hTree hClosed other.toLink
          hLink hBoth.2 with hRoot | hIn | hNot
      · exact hIsRoot hRoot
      · exact hMarked hIn
      · exact hNot ⟨other, findEntry_of_mem hTree hOther,
          hBoth.1⟩

end Outcome

end Marking

end Amarian
