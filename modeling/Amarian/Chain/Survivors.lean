import Amarian.Chain.Convergence
import Amarian.Lib.Thinning

/-
  What is left of a tree of headers when some are lost.

  If no header is kept without its parent, the headers that
  are kept form a tree again.  Lines of ancestors, work and
  heights stay what they were; the arrival numbers are
  counted anew and keep their order.

  Key definitions include:
    * `ParentClosed`
    * `survivors`

  Key theorems include:
    * `TreeOk.outranks_survivors`
-/

------------------------------------------------------------
-- Arrival Numbers
------------------------------------------------------------

namespace Amarian

/- Links are numbered by their order of arrival. -/
def arrivals : NodeNumbers Link Hash256 where
  key := Link.hash
  number := Link.sequence
  set := fun link k => { link with sequence := k }
  number_set := fun _ _ => rfl
  set_number := fun _ => rfl
  key_set := fun _ _ => rfl

/- The kept links, with arrival numbers that leave no gap. -/
def survivors
    (keep : Link → Bool)
    (tree : List Link) : List Link :=
  arrivals.recount (tree.filter keep)

/- No link is kept without the one below it. -/
def ParentClosed
    (keep : Link → Bool)
    (tree : List Link) : Prop :=
  ∀ link ∈ tree, keep link = true →
    ∀ above ∈ tree, link.parent = some above.hash →
      keep above = true

variable {c : Crypto} {params : ChainParams}
variable {keep : Link → Bool} {tree : List Link}

theorem ParentClosed.older
    {link : Link}
    (hClosed : ParentClosed keep (link :: tree)) :
    ParentClosed keep tree := by
  intro child hChild hKeep above hAbove hParent
  exact hClosed child (List.mem_cons_of_mem _ hChild) hKeep
    above (List.mem_cons_of_mem _ hAbove) hParent

theorem TreeOk.counted
    (hTree : TreeOk c params tree) :
    arrivals.Counted tree := by
  induction hTree with
  | genesis => exact ⟨rfl, trivial⟩
  | add hOlder hFresh hParent hPrev hHeader hContext ih =>
      exact ⟨rfl, ih⟩

theorem survivors_cons_kept
    {link : Link}
    (hKeep : keep link = true) :
    survivors keep (link :: tree) =
      { link with sequence := (survivors keep tree).length } ::
        survivors keep tree := by
  rw [survivors, List.filter_cons_of_pos hKeep,
    NodeNumbers.recount, survivors, NodeNumbers.length_recount]
  rfl

theorem survivors_cons_lost
    {link : Link}
    (hLost : keep link = false) :
    survivors keep (link :: tree) = survivors keep tree := by
  rw [survivors, List.filter_cons_of_neg (by simp [hLost])]
  rfl

/- Where everything is kept nothing changes. -/
theorem TreeOk.survivors_eq_self
    (hTree : TreeOk c params tree)
    (hAll : ∀ link ∈ tree, keep link = true) :
    Amarian.survivors keep tree = tree := by
  rw [Amarian.survivors, List.filter_eq_self.mpr hAll]
  exact NodeNumbers.recount_eq_self hTree.counted

/- A survivor is a link of the tree but for its number. -/
theorem mem_survivors
    {twin : Link}
    (hTwin : twin ∈ survivors keep tree) :
    ∃ link ∈ tree,
      keep link = true ∧ twin.unordered = link.unordered := by
  rcases NodeNumbers.mem_recount hTwin with
    ⟨link, hLink, k, -, rfl⟩
  rcases List.mem_filter.mp hLink with ⟨hMember, hKeep⟩
  exact ⟨link, hMember, hKeep, rfl⟩

theorem exists_survivor
    {link : Link}
    (hLink : link ∈ tree)
    (hKeep : keep link = true) :
    ∃ twin ∈ survivors keep tree,
      twin.unordered = link.unordered := by
  have hKept : link ∈ tree.filter keep :=
    List.mem_filter.mpr ⟨hLink, hKeep⟩
  have hTwins :
      ∃ k,
        arrivals.set link k ∈
          arrivals.recount (tree.filter keep) :=
    NodeNumbers.exists_mem_recount hKept
  rcases hTwins with ⟨k, hTwin⟩
  exact ⟨_, hTwin, rfl⟩

------------------------------------------------------------
-- The Tree Of The Survivors
------------------------------------------------------------

/- The rules read nothing of a line but what is kept. -/
theorem headerContextFor_congr
    {first second : Link}
    {line other : List Link}
    (now : Int64)
    (candidate : Option Int64)
    (hSame : first.unordered = second.unordered)
    (hLine :
      line.map Link.unordered = other.map Link.unordered) :
    headerContextFor first line now params candidate =
      headerContextFor second other now params candidate := by
  rw [← headerContextFor_unordered first line, hSame, hLine,
    headerContextFor_unordered]

/-
  The survivors are a tree of accepted headers, and every
  one of them has the line of ancestors it had.
-/
theorem TreeOk.survivors_lines
    (hTree : TreeOk c params tree)
    (hRoot :
      ∀ link ∈ tree, link.parent = none → keep link = true)
    (hClosed : ParentClosed keep tree) :
    TreeOk c params (Amarian.survivors keep tree) ∧
      ∀ link ∈ tree, keep link = true →
        lineOf (Amarian.survivors keep tree) link.hash =
          lineOf tree link.hash := by
  induction hTree with
  | genesis =>
      have hKeep := hRoot _ (List.mem_singleton.mpr rfl) rfl
      rw [TreeOk.genesis.survivors_eq_self (by
        intro link hLink
        rw [List.mem_singleton.mp hLink]
        exact hKeep)]
      exact ⟨.genesis, fun _ _ _ => rfl⟩
  | @add older parent header now hOlder hFresh hParent hPrev
      hHeader hContext ih =>
      have hTree := TreeOk.add hOlder hFresh hParent hPrev
        hHeader hContext
      rcases ih
        (fun link hLink =>
          hRoot link (List.mem_cons_of_mem _ hLink))
        hClosed.older with
        ⟨hRest, hLines⟩
      have hOldLines : ∀ link ∈ older,
          lineOf
              (childLink c parent header older.length ::
                older) link.hash =
            lineOf older link.hash := fun link hLink =>
        lineOf_cons hFresh ⟨link, hLink, rfl⟩
      cases hKeep : keep
          (childLink c parent header older.length) with
      | false =>
          rw [survivors_cons_lost hKeep]
          refine ⟨hRest, ?_⟩
          intro link hLink hKept
          rcases List.mem_cons.mp hLink with rfl | hOld
          · rw [hKeep] at hKept
            cases hKept
          · rw [hLines link hOld hKept, hOldLines link hOld]
      | true =>
          rw [survivors_cons_kept hKeep]
          have hAbove : keep parent = true :=
            hClosed _ (List.mem_cons_self ..) hKeep parent
              (List.mem_cons_of_mem _ hParent) rfl
          have hLine := hLines parent hParent hAbove
          rcases hOlder.exists_of_lineOf hParent hLine with
            ⟨twin, hTwin, hSame⟩
          rcases Link.of_unordered hSame with
            ⟨-, hHash, hWork, -⟩
          have hNewFresh : ∀ link ∈
              Amarian.survivors keep older,
              link.hash ≠ header.hash c := by
            intro link hLink
            rcases mem_survivors hLink with
              ⟨old, hOld, -, hUnordered⟩
            rw [(Link.of_unordered hUnordered).2.1]
            exact hFresh old hOld
          have hSameContext :
              headerContextFor twin
                  (ancestry (Amarian.survivors keep older)
                    header.prevBlock) now params
                  (some header.timestamp) =
                headerContextFor parent
                  (ancestry older header.prevBlock) now params
                  (some header.timestamp) := by
            rw [hPrev] at hLine
            exact headerContextFor_congr now _ hSame hLine
          rw [← hSameContext] at hContext
          have hNew := TreeOk.add hRest hNewFresh hTwin
            (hHash.trans hPrev) hHeader hContext
          have hChild :
              childLink c twin header
                  (Amarian.survivors keep older).length =
                { childLink c parent header older.length with
                  sequence :=
                    (Amarian.survivors keep older).length } := by
            simp [childLink, hHash, hWork]
          rw [hChild] at hNew
          refine ⟨hNew, ?_⟩
          intro link hLink hKept
          rcases List.mem_cons.mp hLink with rfl | hOld
          · rw [hTree.lineOf_step hLink
              (show _ = some parent.hash from rfl),
              hOldLines parent hParent, ← hLine]
            have hStep := hNew.lineOf_step
              (List.mem_cons_self ..)
              (show _ = some twin.hash from by
                rw [hHash]; rfl)
            refine hStep.trans ?_
            rw [lineOf_cons hNewFresh ⟨twin, hTwin, rfl⟩,
              hHash]
            rfl
          · rw [lineOf_cons hNewFresh, hLines link hOld hKept,
              hOldLines link hOld]
            rcases exists_survivor hOld hKept with
              ⟨other, hOther, hUnordered⟩
            exact ⟨other, hOther,
              (Link.of_unordered hUnordered).2.1⟩

namespace TreeOk

variable (hTree : TreeOk c params tree)
variable (hRoot :
  ∀ link ∈ tree, link.parent = none → keep link = true)
variable (hClosed : ParentClosed keep tree)

include hTree hRoot hClosed

theorem branch_survivors
    {link : Link}
    (hLink : link ∈ tree)
    (hKeep : keep link = true) :
    branch (Amarian.survivors keep tree) link.hash =
      branch tree link.hash := by
  rw [branch_eq_lineOf, branch_eq_lineOf,
    (hTree.survivors_lines hRoot hClosed).2 link hLink hKeep]

omit hRoot hClosed in
/- Chain selection ranks the survivors as it did before. -/
theorem outranks_survivors
    {first second firstTwin secondTwin : Link}
    (hFirst : first ∈ tree)
    (hSecond : second ∈ tree)
    (hFirstTwin :
      firstTwin ∈ Amarian.survivors keep tree)
    (hSecondTwin :
      secondTwin ∈ Amarian.survivors keep tree)
    (hFirstHash : firstTwin.hash = first.hash)
    (hSecondHash : secondTwin.hash = second.hash) :
    firstTwin.outranks secondTwin ↔
      first.outranks second := by
  have hGrown := hTree.grown
  have hKept : ∀ twin ∈ Amarian.survivors keep tree,
      ∀ link ∈ tree, twin.hash = link.hash →
        link ∈ tree.filter keep ∧
          twin.totalWork = link.totalWork := by
    intro twin hTwin link hLink hHash
    rcases mem_survivors hTwin with
      ⟨old, hOld, hKeep, hUnordered⟩
    rcases Link.of_unordered hUnordered with
      ⟨-, hSame, hWork, -⟩
    have hEq := hGrown.key_injective hOld hLink
      (hSame.symm.trans hHash)
    subst hEq
    exact ⟨List.mem_filter.mpr ⟨hOld, hKeep⟩, hWork⟩
  rcases hKept firstTwin hFirstTwin first hFirst hFirstHash with
    ⟨hFirstKept, hFirstWork⟩
  rcases hKept secondTwin hSecondTwin second hSecond
    hSecondHash with ⟨hSecondKept, hSecondWork⟩
  have hNumbers :
      arrivals.number firstTwin < arrivals.number secondTwin ↔
        arrivals.number first < arrivals.number second :=
    NodeNumbers.number_lt_iff
      (hTree.counted.pairwise.filter _)
      (fun a hA b hB hKey =>
        hGrown.key_injective (List.mem_filter.mp hA).1
          (List.mem_filter.mp hB).1 hKey)
      hFirstKept hSecondKept hFirstTwin hSecondTwin
      hFirstHash hSecondHash
  unfold Link.outranks
  rw [hFirstWork, hSecondWork]
  exact or_congr_right (and_congr_right fun _ => hNumbers)

end TreeOk

end Amarian
