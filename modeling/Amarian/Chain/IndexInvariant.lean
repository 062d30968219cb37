import Amarian.Chain.RulingOut
import Amarian.Chain.Selection

/-
  The invariant of the block index and what each of its
  operations does to it.

  Key definitions include:
    * `IndexOk`

  Key theorems include:
    * `BlockIndex.addHeader_eq_ok`
    * `IndexOk.addHeader`
    * `IndexOk.recordValidity`
    * `IndexOk.recordFailure`
-/

------------------------------------------------------------
-- The Invariant
------------------------------------------------------------

namespace Amarian

/-
  The links form a tree of accepted headers, the child lists
  are its parent links, rulings-out reach whole subtrees and
  the best header is the best there is.
-/
structure IndexOk
    (c : Crypto)
    (params : ChainParams)
    (index : BlockIndex) : Prop where
  tree : TreeOk c params index.tree
  next : index.nextSequence = index.entries.length
  genesis :
    index.genesis =
      (buildGenesisBlock c params).header.hash c
  children : index.children = childPairs index.tree
  closed : Closed index.entries
  best :
    ∃ best,
      IsBest index.entries best ∧
        index.bestHeader =
          best.map fun entry => entry.hash

variable {c : Crypto} {params : ChainParams}
variable {index : BlockIndex}

namespace IndexOk

theorem find_of_mem
    (hIndex : IndexOk c params index)
    {entry : BlockIndexEntry}
    (hEntry : entry ∈ index.entries) :
    index.find entry.hash = some entry :=
  findEntry_of_mem hIndex.tree hEntry

theorem mem_of_find
    {hash : Hash256}
    {entry : BlockIndexEntry}
    (hFound : index.find hash = some entry) :
    entry ∈ index.entries ∧ entry.hash = hash :=
  findEntry_eq_some hFound

theorem link_mem
    {entry : BlockIndexEntry}
    (hEntry : entry ∈ index.entries) :
    entry.toLink ∈ index.tree :=
  List.mem_map_of_mem hEntry

/- The best header's entry is what the index looks up. -/
theorem find_bestHeader
    (hIndex : IndexOk c params index)
    {best : Option BlockIndexEntry}
    (hBest : IsBest index.entries best)
    (hHeader :
      index.bestHeader =
        best.map fun entry => entry.hash) :
    index.bestHeader.bind index.find = best := by
  rw [hHeader]
  cases best with
  | none => rfl
  | some entry => exact hIndex.find_of_mem hBest.1

end IndexOk

------------------------------------------------------------
-- The Fresh Index
------------------------------------------------------------

theorem IndexOk.forNetwork
    (c : Crypto)
    (params : ChainParams) :
    IndexOk c params (BlockIndex.forNetwork c params) where
  tree := TreeOk.genesis
  next := rfl
  genesis := rfl
  children := rfl
  closed := by
    intro entry hEntry parent hParent hLink
    rw [BlockIndex.forNetwork, BlockIndex.ofGenesis,
      List.mem_singleton] at hEntry
    subst hEntry
    simp [newEntry, rootLink] at hLink
  best := by
    refine ⟨some (newEntry (rootLink c
      (buildGenesisBlock c params).header) .full),
      ?_, rfl⟩
    refine ⟨List.mem_singleton.mpr rfl, rfl, ?_⟩
    intro entry hEntry
    rw [BlockIndex.forNetwork, BlockIndex.ofGenesis,
      List.mem_singleton] at hEntry
    rw [hEntry, ← Bool.not_eq_true, isBetterTip_iff]
    rintro ⟨hEligible, hOutranks⟩
    exact Link.outranks_irrefl _ (hOutranks hEligible)

------------------------------------------------------------
-- Adding A Header
------------------------------------------------------------

/-
  Either the header is known, or it passed every rule and
  sits below an eligible parent now.
-/
theorem BlockIndex.addHeader_eq_ok
    {header : BlockHeader}
    {now : Int64}
    {after : BlockIndex} :
    index.addHeader c params header now = .ok after ↔
      (after = index ∧
          (index.find (header.hash c)).isSome = true) ∨
        (index.find (header.hash c) = none ∧
          ∃ parent,
            index.find header.prevBlock = some parent ∧
              parent.isEligible = true ∧
              checkBlockHeader c header params = .ok () ∧
              contextualCheckBlockHeader header
                  (headerContextFor parent.toLink
                    (index.lineage header.prevBlock) now
                    params (some header.timestamp)) =
                .ok () ∧
              after =
                index.insertEntry
                  (newEntry
                    (childLink c parent.toLink header
                      index.nextSequence)
                    .header)) := by
  unfold BlockIndex.addHeader
  have hMapError : ∀ verdict : Verdict,
      verdict.mapError HeaderError.rule = .ok () ↔
        verdict = .ok () := by
    intro verdict
    cases verdict <;> simp [Except.mapError]
  cases hKnown : index.find (header.hash c) with
  | some entry =>
      constructor
      · intro hDone
        cases hDone
        exact Or.inl ⟨rfl, rfl⟩
      · rintro (⟨rfl, -⟩ | ⟨hNone, -⟩)
        · rfl
        · cases hNone
  | none =>
      simp only [except_bind_eq_ok]
      cases hParent : index.find header.prevBlock with
      | none => simp
      | some parent =>
          cases hEligible : parent.isEligible with
          | false => simp [hEligible]
          | true =>
              simp only [hEligible, Bool.not_true,
                Bool.false_eq_true, if_false,
                except_bind_eq_ok]
              constructor
              · rintro ⟨⟨⟩, hHeader, ⟨⟩, hContext, hDone⟩
                cases hDone
                exact Or.inr ⟨trivial, parent, rfl, hEligible,
                  (hMapError _).mp hHeader,
                  (hMapError _).mp hContext, rfl⟩
              · rintro (⟨-, hSome⟩ | ⟨-, found, hFound, -,
                  hHeader, hContext, rfl⟩)
                · cases hSome
                · cases hFound
                  exact ⟨(), (hMapError _).mpr hHeader, (),
                    (hMapError _).mpr hContext, rfl⟩

namespace IndexOk

theorem hash_ne_of_find_none
    {hash : Hash256}
    (hNone : index.find hash = none) :
    ∀ link ∈ index.tree, link.hash ≠ hash := by
  intro link hLink hHash
  rcases List.mem_map.mp hLink with ⟨entry, hEntry, rfl⟩
  have hNot := List.find?_eq_none.mp hNone entry hEntry
  exact hNot (decide_eq_true hHash)

/- A new entry challenges the best one. -/
theorem bestHeader_insertEntry
    (hIndex : IndexOk c params index)
    {best : Option BlockIndexEntry}
    {entry : BlockIndexEntry}
    (hBest : IsBest index.entries best)
    (hHeader :
      index.bestHeader =
        best.map fun entry => entry.hash)
    (hEligible : entry.isEligible = true) :
    (index.insertEntry entry).bestHeader =
      (challenge best entry).map
        fun entry => entry.hash := by
  have hFind := hIndex.find_bestHeader hBest hHeader
  simp only [BlockIndex.insertEntry, hFind, challenge,
    hEligible, Bool.not_true, Bool.false_eq_true, if_false]
  cases best with
  | none => rfl
  | some incumbent =>
      by_cases hBetter : isBetterTip entry incumbent = true
      · simp [hBetter]
      · simp [hBetter, hHeader]

/- A header that passed the rules keeps the invariant. -/
theorem insertEntry
    (hIndex : IndexOk c params index)
    {header : BlockHeader}
    {now : Int64}
    {parent : BlockIndexEntry}
    (hFresh : index.find (header.hash c) = none)
    (hParent : index.find header.prevBlock = some parent)
    (hEligible : parent.isEligible = true)
    (hHeader : checkBlockHeader c header params = .ok ())
    (hContext :
      contextualCheckBlockHeader header
          (headerContextFor parent.toLink
            (index.lineage header.prevBlock) now params
            (some header.timestamp)) =
        .ok ()) :
    IndexOk c params
      (index.insertEntry
        (newEntry
          (childLink c parent.toLink header
            index.nextSequence)
          .header)) := by
  rcases mem_of_find hParent with ⟨hParentMem, hPrev⟩
  have hNext : index.nextSequence = index.tree.length := by
    rw [hIndex.next, BlockIndex.tree, List.length_map]
  rcases hIndex.best with ⟨best, hBest, hBestHeader⟩
  refine ⟨?_, ?_, hIndex.genesis, ?_, ?_, ?_⟩
  · rw [hNext]
    exact TreeOk.add hIndex.tree
      (hash_ne_of_find_none hFresh) (link_mem hParentMem)
      hPrev hHeader hContext
  · simp [BlockIndex.insertEntry, hIndex.next]
  · simp [BlockIndex.insertEntry, BlockIndex.tree,
      childPairs, hIndex.children, newEntry, childLink,
      hPrev]
  · intro entry hEntry above hAbove hLink hFailed
    rcases List.mem_cons.mp hEntry with rfl | hOld
    · -- The new entry's parent is the eligible one.
      exfalso
      have hHash : above.hash = parent.hash := by
        simpa [newEntry, childLink, eq_comm] using hLink
      rcases List.mem_cons.mp hAbove with rfl | hAboveOld
      · exact hash_ne_of_find_none hFresh parent.toLink
          (link_mem hParentMem) hHash.symm
      · rw [entry_injective hIndex.tree hAboveOld hParentMem
          hHash, hEligible] at hFailed
        cases hFailed
    · rcases List.mem_cons.mp hAbove with rfl | hAboveOld
      · cases hFailed
      · exact hIndex.closed entry hOld above hAboveOld hLink
          hFailed
  · refine ⟨_, hBest.cons _, ?_⟩
    exact hIndex.bestHeader_insertEntry hBest hBestHeader rfl

theorem addHeader
    (hIndex : IndexOk c params index)
    {header : BlockHeader}
    {now : Int64}
    {after : BlockIndex}
    (hAdded :
      index.addHeader c params header now = .ok after) :
    IndexOk c params after := by
  rcases BlockIndex.addHeader_eq_ok.mp hAdded with
    ⟨rfl, -⟩ | ⟨hFresh, parent, hParent, hEligible, hHeader,
      hContext, rfl⟩
  · exact hIndex
  · exact hIndex.insertEntry hFresh hParent hEligible hHeader
      hContext

end IndexOk

/- What a successful `addHeader` says about lookups. -/
theorem BlockIndex.find_insertEntry
    (index : BlockIndex)
    (entry : BlockIndexEntry)
    (hash : Hash256) :
    (index.insertEntry entry).find hash =
      if entry.hash = hash then some entry
      else index.find hash := by
  unfold BlockIndex.find findEntry BlockIndex.insertEntry
  by_cases hHash : entry.hash = hash
  · simp [hHash]
  · simp [hHash]

------------------------------------------------------------
-- Changes Of Status
------------------------------------------------------------

/-
  A change of status touches neither the links nor which
  entries are best as long as it keeps the failures.
-/
theorem IsBest.map_status
    {entries : List BlockIndexEntry}
    {best : Option BlockIndexEntry}
    {change : BlockIndexEntry → BlockIndexEntry}
    (hLink :
      ∀ entry, (change entry).toLink = entry.toLink)
    (hFailure :
      ∀ entry, (change entry).failure = entry.failure)
    (hBest : IsBest entries best) :
    IsBest (entries.map change) (best.map change) := by
  have hEligible : ∀ entry,
      (change entry).isEligible = entry.isEligible := by
    intro entry
    simp [BlockIndexEntry.isEligible, hFailure]
  have hBetter : ∀ a b,
      isBetterTip (change a) (change b) =
        isBetterTip a b := by
    intro a b
    rw [Bool.eq_iff_iff, isBetterTip_iff, isBetterTip_iff,
      hEligible, hEligible, hLink, hLink]
  cases best with
  | none =>
      intro entry hEntry
      rcases List.mem_map.mp hEntry with ⟨old, hOld, rfl⟩
      rw [hEligible]
      exact hBest old hOld
  | some best =>
      rcases hBest with ⟨hMem, hOk, hAll⟩
      refine ⟨List.mem_map_of_mem hMem, ?_, ?_⟩
      · rw [hEligible]
        exact hOk
      · intro entry hEntry
        rcases List.mem_map.mp hEntry with ⟨old, hOld, rfl⟩
        rw [hBetter]
        exact hAll old hOld

namespace BlockIndex

theorem recordValidity_entries
    (index : BlockIndex)
    (hash : Hash256)
    (reached : BlockValidity) :
    (index.recordValidity hash reached).entries =
      index.entries.map (raiseValidity hash reached) :=
  rfl

theorem raiseValidity_toLink
    (hash : Hash256)
    (reached : BlockValidity)
    (entry : BlockIndexEntry) :
    (raiseValidity hash reached entry).toLink =
      entry.toLink := by
  unfold raiseValidity
  split <;> rfl

theorem raiseValidity_failure
    (hash : Hash256)
    (reached : BlockValidity)
    (entry : BlockIndexEntry) :
    (raiseValidity hash reached entry).failure =
      entry.failure := by
  unfold raiseValidity
  split <;> rfl

@[simp] theorem recordValidity_tree
    (index : BlockIndex)
    (hash : Hash256)
    (reached : BlockValidity) :
    (index.recordValidity hash reached).tree =
      index.tree := by
  rw [tree, recordValidity_entries, List.map_map]
  apply List.map_congr_left
  intro entry _
  exact raiseValidity_toLink hash reached entry

theorem find_recordValidity
    (index : BlockIndex)
    (hash : Hash256)
    (reached : BlockValidity)
    (wanted : Hash256) :
    (index.recordValidity hash reached).find wanted =
      (index.find wanted).map
        (raiseValidity hash reached) := by
  rw [find, recordValidity_entries]
  apply findEntry_map
  intro entry
  rw [raiseValidity_toLink]

@[simp] theorem eligible_recordValidity
    (index : BlockIndex)
    (hash : Hash256)
    (reached : BlockValidity)
    (wanted : Hash256) :
    (index.recordValidity hash reached).eligible wanted =
      index.eligible wanted := by
  unfold eligible
  rw [find_recordValidity]
  cases index.find wanted with
  | none => rfl
  | some entry =>
      simp [BlockIndexEntry.isEligible,
        raiseValidity_failure]

end BlockIndex

theorem IndexOk.recordValidity
    (hIndex : IndexOk c params index)
    (hash : Hash256)
    (reached : BlockValidity) :
    IndexOk c params
      (index.recordValidity hash reached) := by
  rcases hIndex.best with ⟨best, hBest, hBestHeader⟩
  refine ⟨?_, ?_, hIndex.genesis, ?_, ?_, ?_⟩
  · rw [BlockIndex.recordValidity_tree]
    exact hIndex.tree
  · rw [BlockIndex.recordValidity_entries, List.length_map]
    exact hIndex.next
  · rw [BlockIndex.recordValidity_tree]
    exact hIndex.children
  · intro entry hEntry parent hParent hLink hFailed
    rcases List.mem_map.mp hEntry with ⟨old, hOld, rfl⟩
    rcases List.mem_map.mp hParent with ⟨above, hAbove, rfl⟩
    change (raiseValidity hash reached _).parent =
      some (raiseValidity hash reached _).hash at hLink
    change (raiseValidity hash reached _).isEligible = false
      at hFailed ⊢
    simp only [BlockIndexEntry.isEligible,
      BlockIndex.raiseValidity_failure,
      BlockIndex.raiseValidity_toLink] at hLink hFailed ⊢
    exact hIndex.closed old hOld above hAbove hLink hFailed
  · refine ⟨_, hBest.map_status
      (BlockIndex.raiseValidity_toLink hash reached)
      (BlockIndex.raiseValidity_failure hash reached), ?_⟩
    rw [show (index.recordValidity hash reached).bestHeader =
      index.bestHeader from rfl, hBestHeader,
      Option.map_map]
    congr 1
    funext entry
    rw [Function.comp_apply, BlockIndex.raiseValidity_toLink]

------------------------------------------------------------
-- Ruling A Block Out
------------------------------------------------------------

theorem ruleOut_toLink
    (tree : List Link)
    (root : Hash256)
    (entry : BlockIndexEntry) :
    (ruleOut tree root entry).toLink = entry.toLink := by
  unfold ruleOut
  split <;> rfl

theorem ruleOut_validity
    (tree : List Link)
    (root : Hash256)
    (entry : BlockIndexEntry) :
    (ruleOut tree root entry).validity =
      entry.validity := by
  unfold ruleOut
  split <;> rfl

theorem ruleOut_isEligible
    (tree : List Link)
    (root : Hash256)
    (entry : BlockIndexEntry) :
    (ruleOut tree root entry).isEligible =
      (entry.isEligible &&
        !descendsFrom tree root entry.hash) := by
  unfold ruleOut
  cases hEligible : entry.isEligible with
  | false => simp [hEligible]
  | true =>
      cases hDescends :
          descendsFrom tree root entry.hash with
      | false => simp [hEligible]
      | true =>
          by_cases hRoot : entry.hash = root <;>
            simp [BlockIndexEntry.isEligible, hRoot]

namespace BlockIndex

@[simp] theorem keepBestHeader_entries
    (index : BlockIndex) :
    index.keepBestHeader.entries = index.entries := by
  unfold keepBestHeader
  split
  · split <;> rfl
  · rfl

theorem keepBestHeader_fields
    (index : BlockIndex) :
    index.keepBestHeader.children = index.children ∧
      index.keepBestHeader.genesis = index.genesis ∧
      index.keepBestHeader.nextSequence =
        index.nextSequence := by
  unfold keepBestHeader
  split
  · split <;> exact ⟨rfl, rfl, rfl⟩
  · exact ⟨rfl, rfl, rfl⟩

theorem recordFailure_of_not_eligible
    {hash : Hash256}
    (hNot : index.eligible hash = false) :
    index.recordFailure hash = index := by
  unfold recordFailure
  unfold eligible at hNot
  cases hFound : index.find hash with
  | none => rfl
  | some entry =>
      rw [hFound, Option.any_some,
        BlockIndexEntry.isEligible, beq_eq_false_iff_ne]
        at hNot
      simp [hNot]

/- The entries after a ruling-out, by the line of ancestors. -/
theorem recordFailure_of_eligible
    (hIndex : IndexOk c params index)
    {hash : Hash256}
    (hEligible : index.eligible hash = true) :
    index.recordFailure hash =
      keepBestHeader
        { index with
          entries :=
            index.entries.map
              (ruleOut index.tree hash) } := by
  unfold eligible at hEligible
  rw [Option.any_eq_true] at hEligible
  rcases hEligible with ⟨entry, hFound, hOk⟩
  rcases IndexOk.mem_of_find hFound with ⟨hEntry, rfl⟩
  have hNone : entry.failure = .none := by
    simpa [BlockIndexEntry.isEligible] using hOk
  have hMarked := markDescendants_eq hIndex.tree
    hIndex.closed hEntry hOk
  have hChildren := hIndex.children
  unfold recordFailure
  rw [hFound]
  simp only [hNone, ne_eq, not_true_eq_false, if_false]
  rw [hChildren]
  exact congrArg
    (fun entries =>
      keepBestHeader { index with entries, children := _ })
    hMarked

@[simp] theorem recordFailure_tree
    (hIndex : IndexOk c params index)
    (hash : Hash256) :
    (index.recordFailure hash).tree = index.tree := by
  cases hEligible : index.eligible hash with
  | false => rw [recordFailure_of_not_eligible hEligible]
  | true =>
      rw [recordFailure_of_eligible hIndex hEligible, tree,
        keepBestHeader_entries, List.map_map]
      apply List.map_congr_left
      intro entry _
      exact ruleOut_toLink _ _ entry

theorem find_recordFailure
    (hIndex : IndexOk c params index)
    {hash : Hash256}
    (hEligible : index.eligible hash = true)
    (wanted : Hash256) :
    (index.recordFailure hash).find wanted =
      (index.find wanted).map (ruleOut index.tree hash) := by
  rw [recordFailure_of_eligible hIndex hEligible, find,
    keepBestHeader_entries]
  apply findEntry_map
  intro entry
  rw [ruleOut_toLink]

/- Exactly the blocks above the failed one lose eligibility. -/
theorem eligible_recordFailure
    (hIndex : IndexOk c params index)
    {hash : Hash256}
    (hEligible : index.eligible hash = true)
    (wanted : Hash256) :
    (index.recordFailure hash).eligible wanted =
      (index.eligible wanted &&
        !descendsFrom index.tree hash wanted) := by
  unfold eligible
  rw [find_recordFailure hIndex hEligible]
  cases hFound : index.find wanted with
  | none => rfl
  | some entry =>
      rcases IndexOk.mem_of_find hFound with ⟨-, rfl⟩
      simp [ruleOut_isEligible]

end BlockIndex

/- The best header is right again after it was checked. -/
theorem isBest_keepBestHeader
    {best : Option BlockIndexEntry}
    {hash : Hash256}
    (hIndex : IndexOk c params index)
    (hBest : IsBest index.entries best)
    (hHeader :
      index.bestHeader =
        best.map fun entry => entry.hash) :
    ∃ best,
      IsBest (index.entries.map (ruleOut index.tree hash))
          best ∧
        (BlockIndex.keepBestHeader
          { index with
            entries :=
              index.entries.map
                (ruleOut index.tree hash) }).bestHeader =
          best.map fun entry => entry.hash := by
  have hRescan := rescanForBestHeader_isBest
    (index.entries.map (ruleOut index.tree hash))
  have hFind :
      index.bestHeader.bind
          (BlockIndex.find
            { index with
              entries :=
                index.entries.map
                  (ruleOut index.tree hash) }) =
        best.map (ruleOut index.tree hash) := by
    rw [hHeader]
    cases best with
    | none => rfl
    | some entry =>
        have hOld := hIndex.find_of_mem hBest.1
        simp only [Option.map_some, Option.bind_some]
        rw [BlockIndex.find, findEntry_map _
          (fun entry => by rw [ruleOut_toLink])]
        rw [show findEntry index.entries entry.hash =
          some entry from hOld, Option.map_some]
  unfold BlockIndex.keepBestHeader
  simp only [hFind]
  cases best with
  | none => exact ⟨_, hRescan, rfl⟩
  | some entry =>
      simp only [Option.map_some]
      split
      case isFalse => exact ⟨_, hRescan, rfl⟩
      case isTrue hOk =>
        refine ⟨some (ruleOut index.tree hash entry), ?_, ?_⟩
        · rcases hBest with ⟨hMem, -, hAll⟩
          refine ⟨List.mem_map_of_mem hMem, hOk, ?_⟩
          intro other hOther
          rcases List.mem_map.mp hOther with ⟨old, hOld, rfl⟩
          have hNot := hAll old hOld
          rw [← Bool.not_eq_true, isBetterTip_iff]
            at hNot ⊢
          rintro ⟨hOldOk, hOutranks⟩
          have hWasOk : old.isEligible = true := by
            rw [ruleOut_isEligible, Bool.and_eq_true]
              at hOldOk
            exact hOldOk.1
          apply hNot
          refine ⟨hWasOk, fun _ => ?_⟩
          have hBeats := hOutranks hOk
          rw [ruleOut_toLink, ruleOut_toLink] at hBeats
          exact hBeats
        · rw [hHeader, Option.map_some, Option.map_some,
            ruleOut_toLink]

theorem IndexOk.recordFailure
    (hIndex : IndexOk c params index)
    (hash : Hash256) :
    IndexOk c params (index.recordFailure hash) := by
  cases hEligible : index.eligible hash with
  | false =>
      rw [BlockIndex.recordFailure_of_not_eligible hEligible]
      exact hIndex
  | true =>
      have hTree :=
        BlockIndex.recordFailure_tree hIndex hash
      rw [BlockIndex.recordFailure_of_eligible hIndex
        hEligible] at hTree ⊢
      rcases hIndex.best with ⟨best, hBest, hHeader⟩
      rcases BlockIndex.keepBestHeader_fields
        { index with
          entries :=
            index.entries.map (ruleOut index.tree hash) } with
        ⟨hChildren, hGenesis, hNext⟩
      refine ⟨?_, ?_, ?_, ?_, ?_, ?_⟩
      · rw [hTree]
        exact hIndex.tree
      · rw [hNext, BlockIndex.keepBestHeader_entries,
          List.length_map]
        exact hIndex.next
      · rw [hGenesis]
        exact hIndex.genesis
      · rw [hChildren, hTree]
        exact hIndex.children
      · intro entry hEntry parent hParent hLink hFailed
        rw [BlockIndex.keepBestHeader_entries]
          at hEntry hParent
        rcases List.mem_map.mp hEntry with ⟨old, hOld, rfl⟩
        rcases List.mem_map.mp hParent with ⟨above, hAbove, rfl⟩
        rw [ruleOut_toLink, ruleOut_toLink] at hLink
        rw [ruleOut_isEligible] at hFailed ⊢
        have hStep :
            descendsFrom index.tree hash above.hash = true →
              descendsFrom index.tree hash old.hash =
                true := fun hAbove =>
          (descendsFrom_step hIndex.tree (link_mem hOld)
            hLink).mpr (Or.inr hAbove)
        rw [Bool.and_eq_false_iff] at hFailed ⊢
        rcases hFailed with hFailed | hDescends
        · exact Or.inl (hIndex.closed old hOld above hAbove
            hLink hFailed)
        · right
          rw [Bool.not_eq_false'] at hDescends ⊢
          exact hStep hDescends
      · rw [BlockIndex.keepBestHeader_entries]
        exact isBest_keepBestHeader hIndex hBest hHeader

------------------------------------------------------------
-- Reading The Index By Its Links
------------------------------------------------------------

namespace IndexOk

theorem eligible_entry
    (hIndex : IndexOk c params index)
    {entry : BlockIndexEntry}
    (hEntry : entry ∈ index.entries) :
    index.eligible entry.hash = entry.isEligible := by
  rw [BlockIndex.eligible, hIndex.find_of_mem hEntry,
    Option.any_some]

theorem mem_of_eligible
    {hash : Hash256}
    (hEligible : index.eligible hash = true) :
    ∃ link ∈ index.tree, link.hash = hash := by
  rw [BlockIndex.eligible, Option.any_eq_true] at hEligible
  rcases hEligible with ⟨entry, hFound, -⟩
  rcases mem_of_find hFound with ⟨hEntry, hHash⟩
  exact ⟨entry.toLink, link_mem hEntry, hHash⟩

/- Below a block that is not ruled out nothing is. -/
theorem eligible_ancestor
    (hIndex : IndexOk c params index)
    {link ancestor : Link}
    (hLink : link ∈ index.tree)
    (hEligible : index.eligible link.hash = true)
    (hAncestor : ancestor ∈ ancestry index.tree link.hash) :
    index.eligible ancestor.hash = true := by
  have hGrown := hIndex.tree.grown
  revert hEligible hAncestor
  refine hGrown.ancestor_induction
    (motive := fun link =>
      index.eligible link.hash = true →
        ancestor ∈ ancestry index.tree link.hash →
          index.eligible ancestor.hash = true)
    ?_ ?_ link hLink
  · intro root hRoot hNone hEligible hAncestor
    rw [ancestry, hGrown.lineage_root hRoot hNone,
      List.mem_singleton] at hAncestor
    rw [hAncestor]
    exact hEligible
  · intro link hLink above hAbove hParent ih hEligible
      hAncestor
    rw [ancestry, hGrown.lineage_step hLink hParent,
      List.mem_cons] at hAncestor
    rcases hAncestor with rfl | hAncestor
    · exact hEligible
    · refine ih ?_ hAncestor
      rcases List.mem_map.mp hLink with ⟨entry, hEntry, rfl⟩
      rcases List.mem_map.mp hAbove with ⟨parent, hMember, rfl⟩
      rw [hIndex.eligible_entry hEntry] at hEligible
      rw [hIndex.eligible_entry hMember]
      by_contra hFailed
      rw [Bool.not_eq_true] at hFailed
      have hClosed := hIndex.closed entry hEntry parent
        hMember hParent hFailed
      rw [hEligible] at hClosed
      cases hClosed

/- The best header beats every other one in the running. -/
theorem bestHeader_cases
    (hIndex : IndexOk c params index) :
    (index.bestHeader = none ∧
        ∀ hash, index.eligible hash = false) ∨
      ∃ best ∈ index.tree,
        index.bestHeader = some best.hash ∧
          index.eligible best.hash = true ∧
          ∀ link ∈ index.tree,
            index.eligible link.hash = true →
              link = best ∨ best.outranks link := by
  rcases hIndex.best with ⟨best, hBest, hHeader⟩
  cases best with
  | none =>
      left
      refine ⟨hHeader, fun hash => ?_⟩
      cases hEligible : index.eligible hash with
      | false => rfl
      | true =>
          rcases mem_of_eligible hEligible with
            ⟨link, hLink, rfl⟩
          rcases List.mem_map.mp hLink with ⟨entry, hEntry, rfl⟩
          rw [hIndex.eligible_entry hEntry,
            hBest entry hEntry] at hEligible
          exact hEligible.symm
  | some best =>
      right
      rcases hBest with ⟨hMember, hOk, hAll⟩
      refine ⟨best.toLink, link_mem hMember, hHeader, ?_, ?_⟩
      · rw [hIndex.eligible_entry hMember]
        exact hOk
      · intro link hLink hEligible
        rcases List.mem_map.mp hLink with ⟨entry, hEntry, rfl⟩
        rw [hIndex.eligible_entry hEntry] at hEligible
        have hNot := hAll entry hEntry
        rw [← Bool.not_eq_true, isBetterTip_iff] at hNot
        by_cases hSame : entry.toLink = best.toLink
        · exact Or.inl hSame
        · right
          have hSequence :
              best.toLink.sequence ≠
                entry.toLink.sequence := by
            intro hSequence
            apply hSame
            exact hIndex.tree.sequence_injective hLink
              (link_mem hMember) hSequence.symm
          rcases Link.outranks_total hSequence with
            hBeats | hLoses
          · exact hBeats
          · exact absurd ⟨hEligible, fun _ => hLoses⟩ hNot

/- How many blocks are in the running, counted on the tree. -/
theorem openCount_eq
    (hIndex : IndexOk c params index) :
    openCount index.entries =
      index.tree.countP
        fun link => index.eligible link.hash := by
  rw [openCount, BlockIndex.tree, List.countP_map]
  apply List.countP_congr
  intro entry hEntry
  rw [Function.comp_apply, hIndex.eligible_entry hEntry]

end IndexOk

end Amarian
