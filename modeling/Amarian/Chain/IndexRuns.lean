import Amarian.Chain.IndexInvariant
import Amarian.Consensus.Magnitude
import Mathlib.Logic.Relation

/-
  What any sequence of calls makes of the block index.

  Key definitions include:
    * `IndexCall`
    * `BlockIndex.after`
    * `BlockIndex.below`
    * `BlockIndexEntry.Kept`
    * `BlockIndex.WellFormed`

  Key theorems include:
    * `IndexOk.wellFormed`
    * `TreeOk.work_grows`
    * `BlockIndex.keeps_call`
    * `blockIndex_invariants`
-/

------------------------------------------------------------
-- Calls
------------------------------------------------------------

namespace Amarian

/- What is called on the index. -/
inductive IndexCall where
  | addHeader (header : BlockHeader) (now : Int64)
  | recordValidity (hash : Hash256) (reached : BlockValidity)
  | recordFailure (hash : Hash256)

namespace BlockIndex

/- A header that is refused leaves no trace. -/
def call
    (c : Crypto)
    (params : ChainParams)
    (index : BlockIndex) : IndexCall → BlockIndex
  | .addHeader header now =>
      match index.addHeader c params header now with
      | .ok added => added
      | .error _ => index
  | .recordValidity hash reached =>
      index.recordValidity hash reached
  | .recordFailure hash => index.recordFailure hash

/- The index of the network after a sequence of calls. -/
def after
    (c : Crypto)
    (params : ChainParams)
    (calls : List IndexCall) : BlockIndex :=
  calls.foldl (call c params) (forNetwork c params)

end BlockIndex

variable {c : Crypto} {params : ChainParams}

theorem IndexOk.call
    {index : BlockIndex}
    (hIndex : IndexOk c params index)
    (call : IndexCall) :
    IndexOk c params (index.call c params call) := by
  cases call with
  | addHeader header now =>
      rw [BlockIndex.call]
      cases hAdded : index.addHeader c params header now with
      | ok added => exact hIndex.addHeader hAdded
      | error _ => exact hIndex
  | recordValidity hash reached =>
      exact hIndex.recordValidity hash reached
  | recordFailure hash => exact hIndex.recordFailure hash

theorem IndexOk.foldl_call
    {index : BlockIndex}
    (hIndex : IndexOk c params index)
    (calls : List IndexCall) :
    IndexOk c params
      (calls.foldl (BlockIndex.call c params) index) := by
  induction calls generalizing index with
  | nil => exact hIndex
  | cons call calls ih => exact ih (hIndex.call call)

------------------------------------------------------------
-- The Shape Of The Tree
------------------------------------------------------------

/- The entry is a child of the other one. -/
def BlockIndex.below
    (index : BlockIndex)
    (entry parent : BlockIndexEntry) : Prop :=
  entry ∈ index.entries ∧
    parent ∈ index.entries ∧
    entry.parent = some parent.hash

/-
  The place of a child: one higher, later, and with its own
  work on top of its parent's.
-/
structure Link.Follows
    (link parent : Link) : Prop where
  hash : link.header.prevBlock = parent.hash
  height : link.height.toNat = parent.height.toNat + 1
  work :
    link.totalWork.amount =
      min
        (parent.totalWork.amount +
          (Work.ofCompactTarget
            link.header.targetBits).amount)
        (2 ^ 256 - 1)
  sequence : parent.sequence < link.sequence

theorem TreeOk.follows
    {tree : List Link}
    (hTree : TreeOk c params tree)
    {link : Link}
    (hLink : link ∈ tree)
    (hNot :
      link ≠ rootLink c (buildGenesisBlock c params).header) :
    ∃ parent ∈ tree,
      link.parent = some parent.hash ∧
        link.Follows parent := by
  induction hTree with
  | genesis =>
      exact absurd (List.mem_singleton.mp hLink) hNot
  | @add older parent header now hOlder hFresh hParent hPrev
      hHeader hContext ih =>
      rcases List.mem_cons.mp hLink with rfl | hOld
      · refine ⟨parent, List.mem_cons_of_mem _ hParent,
          rfl, ?_⟩
        exact
          { hash := hPrev.symm
            height := height_of_context hContext
            work := Work.amount_add ..
            sequence := hOlder.sequence_lt hParent }
      · rcases ih hOld with
          ⟨above, hAbove, hLinked, hFollows⟩
        exact ⟨above, List.mem_cons_of_mem _ hAbove,
          hLinked, hFollows⟩

/- A child adds what its target asks for, which is some. -/
theorem TreeOk.work_grows
    {tree : List Link}
    (hTree : TreeOk c params tree)
    {link above : Link}
    (hLink : link ∈ tree)
    (hAbove : above ∈ tree)
    (hParent : link.parent = some above.hash) :
    ∃ target,
      compactToTarget link.header.targetBits = some target ∧
        link.totalWork.amount =
          min
            (above.totalWork.amount +
              (Work.ofTarget target).amount)
            (2 ^ 256 - 1) ∧
        0 < (Work.ofTarget target).amount := by
  rcases hTree.child_cases hLink with
    rfl | ⟨other, hOther, now, hPrev, hChild, hHeader, -⟩
  · cases hParent
  have hSame : other = above := by
    apply hTree.grown.key_injective hOther hAbove
    rw [hChild] at hParent
    exact Option.some_inj.mp hParent
  subst hSame
  unfold checkBlockHeader at hHeader
  split at hHeader
  · cases hHeader
  · rename_i target hTarget
    have hWork : Work.ofCompactTarget link.header.targetBits =
        Work.ofTarget target := by
      rw [Work.ofCompactTarget, hTarget]
    have hPos := Work.amount_ofCompactTarget_pos hTarget
    rw [hWork] at hPos
    refine ⟨target, hTarget, ?_, hPos⟩
    rw [hChild, ← hWork]
    exact Work.amount_add ..

theorem TreeOk.nodup_sequence
    {tree : List Link}
    (hTree : TreeOk c params tree) :
    (tree.map Link.sequence).Nodup := by
  induction hTree with
  | genesis => exact List.nodup_singleton _
  | add hOlder hFresh hParent hPrev hHeader hContext ih =>
      rw [List.map_cons, List.nodup_cons]
      refine ⟨?_, ih⟩
      intro hSame
      rcases List.mem_map.mp hSame with
        ⟨link, hLink, hSequence⟩
      have hLess := hOlder.sequence_lt hLink
      rw [hSequence] at hLess
      exact absurd hLess (Nat.lt_irrefl _)

------------------------------------------------------------
-- One Index
------------------------------------------------------------

/-
  What the index promises of its entries, and that its best
  header is the greatest of those in the running.
-/
structure BlockIndex.WellFormed
    (index : BlockIndex) : Prop where
  parents :
    ∀ entry ∈ index.entries,
      entry.hash ≠ index.genesis →
        ∃ parent,
          index.below entry parent ∧
            entry.toLink.Follows parent.toLink
  sequences :
    (index.entries.map fun entry => entry.sequence).Nodup
  ancestors :
    ∀ entry ancestor,
      Relation.TransGen index.below entry ancestor →
        entry.isEligible = true →
          ancestor.isEligible = true
  irreflexive :
    ∀ entry, isBetterTip entry entry = false
  transitive :
    ∀ first second third,
      isBetterTip first second = true →
        isBetterTip second third = true →
          isBetterTip first third = true
  total :
    ∀ first ∈ index.entries, ∀ second ∈ index.entries,
      first.isEligible = true →
        second.isEligible = true →
          first ≠ second →
            (isBetterTip first second = true ∨
              isBetterTip second first = true)
  empty :
    index.bestHeader = none ↔
      ∀ entry ∈ index.entries, entry.isEligible = false
  best :
    ∀ hash, index.bestHeader = some hash →
      ∃ best,
        index.find hash = some best ∧
          best.isEligible = true ∧
          ∀ entry ∈ index.entries,
            entry.isEligible = true →
              entry ≠ best →
                isBetterTip best entry = true

theorem isBetterTip_irrefl
    (entry : BlockIndexEntry) :
    isBetterTip entry entry = false := by
  rw [← Bool.not_eq_true, isBetterTip_iff]
  rintro ⟨hEligible, hOutranks⟩
  exact Link.outranks_irrefl _ (hOutranks hEligible)

theorem isBetterTip_trans
    {first second third : BlockIndexEntry}
    (hFirst : isBetterTip first second = true)
    (hSecond : isBetterTip second third = true) :
    isBetterTip first third = true := by
  rw [isBetterTip_iff] at hFirst hSecond ⊢
  exact ⟨hFirst.1, fun hThird =>
    Link.outranks_trans (hFirst.2 hSecond.1)
      (hSecond.2 hThird)⟩

section WellFormed

variable {index : BlockIndex}

namespace IndexOk

/- An entry is told by its link. -/
theorem entry_eq_of_toLink
    (hIndex : IndexOk c params index)
    {first second : BlockIndexEntry}
    (hFirst : first ∈ index.entries)
    (hSecond : second ∈ index.entries)
    (hLink : first.toLink = second.toLink) :
    first = second :=
  entry_injective hIndex.tree hFirst hSecond
    (congrArg Link.hash hLink)

theorem isBetterTip_total
    (hIndex : IndexOk c params index)
    {first second : BlockIndexEntry}
    (hFirst : first ∈ index.entries)
    (hSecond : second ∈ index.entries)
    (hFirstOk : first.isEligible = true)
    (hSecondOk : second.isEligible = true)
    (hDiffer : first ≠ second) :
    isBetterTip first second = true ∨
      isBetterTip second first = true := by
  have hSequence : first.sequence ≠ second.sequence := by
    intro hSame
    apply hDiffer
    apply hIndex.entry_eq_of_toLink hFirst hSecond
    exact hIndex.tree.sequence_injective (link_mem hFirst)
      (link_mem hSecond) hSame
  simp only [isBetterTip_iff, hFirstOk, hSecondOk, true_and,
    forall_const]
  exact Link.outranks_total hSequence

theorem parents
    (hIndex : IndexOk c params index)
    {entry : BlockIndexEntry}
    (hEntry : entry ∈ index.entries)
    (hNot : entry.hash ≠ index.genesis) :
    ∃ parent,
      index.below entry parent ∧
        entry.toLink.Follows parent.toLink := by
  have hLink :
      entry.toLink ≠
        rootLink c (buildGenesisBlock c params).header := by
    intro hRoot
    apply hNot
    rw [hIndex.genesis, hRoot]
    rfl
  rcases hIndex.tree.follows (link_mem hEntry) hLink with
    ⟨above, hAbove, hParent, hFollows⟩
  rcases List.mem_map.mp hAbove with ⟨parent, hMember, rfl⟩
  exact ⟨parent, ⟨hEntry, hMember, hParent⟩, hFollows⟩

/- Along the parents nothing becomes ineligible. -/
theorem eligible_of_transGen
    (hIndex : IndexOk c params index)
    {entry ancestor : BlockIndexEntry}
    (hAbove : Relation.TransGen index.below entry ancestor)
    (hEligible : entry.isEligible = true) :
    ancestor.isEligible = true := by
  have hStep : ∀ {child parent : BlockIndexEntry},
      index.below child parent →
        child.isEligible = true →
          parent.isEligible = true := by
    intro child parent hBelow hChild
    by_contra hFailed
    rw [Bool.not_eq_true] at hFailed
    have hClosed := hIndex.closed child hBelow.1 parent
      hBelow.2.1 hBelow.2.2 hFailed
    rw [hChild] at hClosed
    cases hClosed
  induction hAbove with
  | single hBelow => exact hStep hBelow hEligible
  | tail _ hBelow ih => exact hStep hBelow ih

theorem bestHeader_none_iff
    (hIndex : IndexOk c params index) :
    index.bestHeader = none ↔
      ∀ entry ∈ index.entries,
        entry.isEligible = false := by
  rcases hIndex.best with ⟨best, hBest, hHeader⟩
  rw [hHeader, Option.map_eq_none_iff]
  constructor
  · rintro rfl
    exact hBest
  · intro hNone
    cases best with
    | none => rfl
    | some best =>
        have hFailed := hNone best hBest.1
        rw [hBest.2.1] at hFailed
        cases hFailed

theorem bestHeader_beats
    (hIndex : IndexOk c params index)
    {hash : Hash256}
    (hBestHeader : index.bestHeader = some hash) :
    ∃ best,
      index.find hash = some best ∧
        best.isEligible = true ∧
        ∀ entry ∈ index.entries,
          entry.isEligible = true →
            entry ≠ best →
              isBetterTip best entry = true := by
  rcases hIndex.best with ⟨best, hBest, hHeader⟩
  rw [hHeader, Option.map_eq_some_iff] at hBestHeader
  rcases hBestHeader with ⟨best, rfl, rfl⟩
  rcases hBest with ⟨hMember, hOk, hAll⟩
  refine ⟨best, hIndex.find_of_mem hMember, hOk, ?_⟩
  intro entry hEntry hEligible hDiffer
  rcases hIndex.isBetterTip_total hEntry hMember hEligible
    hOk hDiffer with hBeats | hLoses
  · rw [hAll entry hEntry] at hBeats
    cases hBeats
  · exact hLoses

theorem wellFormed
    (hIndex : IndexOk c params index) :
    index.WellFormed where
  parents := fun _ => hIndex.parents
  sequences := by
    have hNodup := hIndex.tree.nodup_sequence
    rw [BlockIndex.tree, List.map_map] at hNodup
    exact hNodup
  ancestors := fun _ _ => hIndex.eligible_of_transGen
  irreflexive := isBetterTip_irrefl
  transitive := fun _ _ _ => isBetterTip_trans
  total := fun _ hFirst _ hSecond =>
    hIndex.isBetterTip_total hFirst hSecond
  empty := hIndex.bestHeader_none_iff
  best := fun _ => hIndex.bestHeader_beats

end IndexOk

end WellFormed

------------------------------------------------------------
-- From One Index To A Later One
------------------------------------------------------------

/- What later calls leave of an entry. -/
structure BlockIndexEntry.Kept
    (entry later : BlockIndexEntry) : Prop where
  link : later.toLink = entry.toLink
  validity : entry.validity.rank ≤ later.validity.rank
  failure :
    entry.failure ≠ .none → later.failure = entry.failure

theorem BlockIndexEntry.Kept.refl
    (entry : BlockIndexEntry) :
    entry.Kept entry :=
  ⟨rfl, Nat.le_refl _, fun _ => rfl⟩

theorem BlockIndexEntry.Kept.trans
    {entry middle later : BlockIndexEntry}
    (hFirst : entry.Kept middle)
    (hSecond : middle.Kept later) :
    entry.Kept later where
  link := hSecond.link.trans hFirst.link
  validity := Nat.le_trans hFirst.validity hSecond.validity
  failure := by
    intro hFailed
    have hSame := hFirst.failure hFailed
    rw [← hSame] at hFailed ⊢
    exact hSecond.failure hFailed

theorem kept_raiseValidity
    (hash : Hash256)
    (reached : BlockValidity)
    (entry : BlockIndexEntry) :
    entry.Kept (raiseValidity hash reached entry) where
  link := BlockIndex.raiseValidity_toLink hash reached entry
  validity := by
    unfold raiseValidity
    split
    · rename_i hRaised
      exact Nat.le_of_lt hRaised.2
    · exact Nat.le_refl _
  failure := fun _ =>
    BlockIndex.raiseValidity_failure hash reached entry

theorem kept_ruleOut
    (tree : List Link)
    (root : Hash256)
    (entry : BlockIndexEntry) :
    entry.Kept (ruleOut tree root entry) where
  link := ruleOut_toLink tree root entry
  validity :=
    Nat.le_of_eq (by rw [ruleOut_validity])
  failure := by
    intro hFailed
    unfold ruleOut
    rw [if_neg]
    simp [BlockIndexEntry.isEligible, hFailed]

section Keeps

variable {index : BlockIndex}

/- An entry that was found is found again, and kept. -/
def BlockIndex.Keeps
    (index later : BlockIndex) : Prop :=
  ∀ hash entry, index.find hash = some entry →
    ∃ other, later.find hash = some other ∧
      entry.Kept other

theorem BlockIndex.keeps_call
    (hIndex : IndexOk c params index)
    (call : IndexCall) :
    index.Keeps (index.call c params call) := by
  intro hash entry hFound
  cases call with
  | addHeader header now =>
      rw [BlockIndex.call]
      cases hAdded : index.addHeader c params header now with
      | error _ => exact ⟨entry, hFound, .refl entry⟩
      | ok added =>
        rcases BlockIndex.addHeader_eq_ok.mp hAdded with
          ⟨rfl, -⟩ | ⟨hFresh, parent, -, -, -, -, rfl⟩
        · exact ⟨entry, hFound, .refl entry⟩
        · refine ⟨entry, ?_, .refl entry⟩
          rw [BlockIndex.find_insertEntry, if_neg]
          · exact hFound
          · rintro rfl
            change index.find (header.hash c) = some entry
              at hFound
            rw [hFresh] at hFound
            cases hFound
  | recordValidity wanted reached =>
      refine ⟨raiseValidity wanted reached entry, ?_,
        kept_raiseValidity wanted reached entry⟩
      rw [BlockIndex.call, BlockIndex.find_recordValidity,
        hFound, Option.map_some]
  | recordFailure wanted =>
      cases hEligible : index.eligible wanted with
      | false =>
          refine ⟨entry, ?_, .refl entry⟩
          rw [BlockIndex.call,
            BlockIndex.recordFailure_of_not_eligible
              hEligible]
          exact hFound
      | true =>
          refine ⟨ruleOut index.tree wanted entry, ?_,
            kept_ruleOut index.tree wanted entry⟩
          rw [BlockIndex.call,
            BlockIndex.find_recordFailure hIndex hEligible,
            hFound, Option.map_some]

theorem BlockIndex.keeps_foldl
    (hIndex : IndexOk c params index)
    (calls : List IndexCall) :
    index.Keeps
      (calls.foldl (BlockIndex.call c params) index) := by
  induction calls generalizing index with
  | nil =>
      intro hash entry hFound
      exact ⟨entry, hFound, .refl entry⟩
  | cons call calls ih =>
      intro hash entry hFound
      rcases BlockIndex.keeps_call hIndex call hash entry
        hFound with ⟨middle, hMiddle, hFirst⟩
      rcases ih (hIndex.call call) hash middle hMiddle with
        ⟨later, hLater, hSecond⟩
      exact ⟨later, hLater, hFirst.trans hSecond⟩

end Keeps

/-
  The index is well formed after any sequence of calls, and
  no later call takes a level or a failure back.
-/
theorem blockIndex_invariants
    (c : Crypto)
    (params : ChainParams)
    (calls : List IndexCall) :
    (BlockIndex.after c params calls).WellFormed ∧
      ∀ later,
        (BlockIndex.after c params calls).Keeps
          (BlockIndex.after c params (calls ++ later)) := by
  have hIndex :=
    (IndexOk.forNetwork c params).foldl_call calls
  refine ⟨hIndex.wellFormed, fun later => ?_⟩
  unfold BlockIndex.after
  rw [List.foldl_append]
  exact BlockIndex.keeps_foldl hIndex later

end Amarian
