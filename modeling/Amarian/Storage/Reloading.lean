import Amarian.Chain.ActiveChain
import Amarian.Chain.Survivors
import Amarian.Consensus.Rules
import Amarian.Storage.LoadChain

/-
  What loading makes of the stored headers.

  The records are sorted by arrival number and go through
  `addHeader` again.  That succeeds exactly when no header
  is on record without its parent, and then the index holds
  the headers on record, in the order they had.

  Key definitions include:
    * `Shelved`
    * `recordsOf`
    * `Rebuilt`
    * `Restored`

  Key theorems include:
    * `sorted_records`
    * `replay_records`
    * `restoreChain_records`
-/

------------------------------------------------------------
-- Records Of A Tree
------------------------------------------------------------

namespace Amarian

/- The header records of a store. -/
abbrev Shelf : Type :=
  AList fun _ : Hash256 => StoredHeader

/- Genesis is seeded, so it needs no record. -/
def isShelved
    (shelf : Shelf)
    (link : Link) : Bool :=
  link.parent.isNone || (shelf.lookup link.hash).isSome

/- Every record is of a header of the tree and fits it. -/
def Shelved
    (fits : Link → StoredHeader → Prop)
    (tree : List Link)
    (shelf : Shelf) : Prop :=
  ∀ hash record, shelf.lookup hash = some record →
    ∃ link ∈ tree,
      link.hash = hash ∧
        record.header = link.header ∧
        fits link record

/- The record has the number that the header came with. -/
def Numbered
    (link : Link)
    (record : StoredHeader) : Prop :=
  record.sequence = link.sequence

/- The records are numbered as their headers came. -/
def InOrder
    (tree : List Link)
    (shelf : Shelf) : Prop :=
  ∀ first ∈ tree, ∀ second ∈ tree,
    ∀ a, shelf.lookup first.hash = some a →
      ∀ b, shelf.lookup second.hash = some b →
        (a.sequence < b.sequence ↔
          first.sequence < second.sequence)

/- The records in the order in which their headers came. -/
def recordsOf
    (tree : List Link)
    (shelf : Shelf) : List StoredHeader :=
  tree.reverse.filterMap fun link => shelf.lookup link.hash

variable {c : Crypto} {params : ChainParams}
variable {tree : List Link} {shelf : Shelf}
variable {fits : Link → StoredHeader → Prop}

theorem recordsOf_cons
    (link : Link)
    (older : List Link)
    (shelf : Shelf) :
    recordsOf (link :: older) shelf =
      recordsOf older shelf ++
        (shelf.lookup link.hash).toList := by
  rw [recordsOf, List.reverse_cons, List.filterMap_append]
  cases hFound : shelf.lookup link.hash <;>
    simp [recordsOf, hFound]

theorem mem_recordsOf
    {record : StoredHeader} :
    record ∈ recordsOf tree shelf ↔
      ∃ link ∈ tree, shelf.lookup link.hash = some record := by
  simp [recordsOf]

theorem isShelved_root
    {link : Link}
    (hRoot : link.parent = none) :
    isShelved shelf link = true := by
  simp [isShelved, hRoot]

theorem isShelved_child
    {link : Link}
    {above : Hash256}
    (hParent : link.parent = some above) :
    isShelved shelf link =
      (shelf.lookup link.hash).isSome := by
  simp [isShelved, hParent]

theorem Shelved.of_lookup
    (hTree : TreeOk c params tree)
    (hShelved : Shelved fits tree shelf)
    {link : Link}
    (hLink : link ∈ tree)
    {record : StoredHeader}
    (hRecord : shelf.lookup link.hash = some record) :
    record.header = link.header ∧ fits link record := by
  rcases hShelved link.hash record hRecord with
    ⟨other, hOther, hHash, hHeader, hFits⟩
  have hSame := hTree.grown.key_injective hOther hLink hHash
  subst hSame
  exact ⟨hHeader, hFits⟩

theorem Shelved.inOrder
    (hTree : TreeOk c params tree)
    (hShelved : Shelved Numbered tree shelf) :
    InOrder tree shelf := by
  intro first hFirst second hSecond a hA b hB
  have hFirstOf := (hShelved.of_lookup hTree hFirst hA).2
  have hSecondOf := (hShelved.of_lookup hTree hSecond hB).2
  unfold Numbered at hFirstOf hSecondOf
  rw [hFirstOf, hSecondOf]

theorem InOrder.pairwise
    (hTree : TreeOk c params tree)
    (hOrder : InOrder tree shelf) :
    (recordsOf tree shelf).Pairwise fun older newer =>
      older.sequence < newer.sequence := by
  unfold recordsOf
  rw [List.pairwise_filterMap, List.pairwise_reverse]
  refine hTree.counted.pairwise.imp_of_mem ?_
  intro newer older hNewer hOlder hLt first hFirst second
    hSecond
  exact (hOrder older hOlder newer hNewer first hFirst second
    hSecond).mpr hLt

/- No two records are of one header. -/
theorem Shelved.nodup_records
    (hTree : TreeOk c params tree)
    (hShelved : Shelved fits tree shelf) :
    (shelf.entries.map Sigma.snd).Nodup := by
  apply List.Nodup.of_map fun record : StoredHeader =>
    record.header.hash c
  have hKeys :
      (shelf.entries.map Sigma.snd).map
          (fun record => record.header.hash c) =
        shelf.keys := by
    rw [List.map_map, AList.keys, List.keys]
    apply List.map_congr_left
    intro entry hEntry
    rcases hShelved entry.1 entry.2
      (AList.mem_lookup_iff.mpr hEntry) with
      ⟨link, hLink, hHash, hHeader, -⟩
    rw [Function.comp_apply, hHeader, ← hHash,
      (hTree.header_of_mem hLink).1]
  rw [hKeys]
  exact AList.keys_nodup shelf

/- Sorting by arrival number gives the order of arrival. -/
theorem sorted_records
    (hTree : TreeOk c params tree)
    (hShelved : Shelved fits tree shelf)
    (hOrder : InOrder tree shelf) :
    (shelf.entries.map Sigma.snd).insertionSort
        (fun left right => left.sequence ≤ right.sequence) =
      recordsOf tree shelf := by
  let before : StoredHeader → StoredHeader → Prop :=
    fun left right => left.sequence ≤ right.sequence
  have hTotal : Std.Total before :=
    ⟨fun a b => Nat.le_total a.sequence b.sequence⟩
  have hTrans : IsTrans StoredHeader before :=
    ⟨fun _ _ _ => Nat.le_trans⟩
  have hStrict := hOrder.pairwise hTree
  have hMem : ∀ record,
      record ∈ shelf.entries.map Sigma.snd ↔
        record ∈ recordsOf tree shelf := by
    intro record
    rw [mem_recordsOf, List.mem_map]
    constructor
    · rintro ⟨entry, hEntry, rfl⟩
      have hFound := AList.mem_lookup_iff.mpr hEntry
      rcases hShelved entry.1 entry.2 hFound with
        ⟨link, hLink, hHash, -⟩
      rw [← hHash] at hFound
      exact ⟨link, hLink, hFound⟩
    · rintro ⟨link, -, hFound⟩
      exact ⟨⟨link.hash, record⟩,
        AList.mem_lookup_iff.mp hFound, rfl⟩
  have hPerm :
      (shelf.entries.map Sigma.snd).Perm
        (recordsOf tree shelf) := by
    rw [List.perm_ext_iff_of_nodup
      (hShelved.nodup_records hTree)
      (hStrict.imp fun hLt hSame => by
        rw [hSame] at hLt
        exact Nat.lt_irrefl _ hLt)]
    exact hMem
  refine @List.Perm.eq_of_pairwise _ before _ _ ?_
    (List.pairwise_insertionSort before _)
    (hStrict.imp fun hLt => Nat.le_of_lt hLt)
    ((List.perm_insertionSort before _).trans hPerm)
  intro first second hFirst hSecond hLe hGe
  rw [List.mem_insertionSort, hMem, mem_recordsOf] at hFirst
  rw [mem_recordsOf] at hSecond
  rcases hFirst with ⟨link, hLink, hFound⟩
  rcases hSecond with ⟨other, hOther, hToo⟩
  have hSame : link = other := by
    apply hTree.sequence_injective hLink hOther
    have hNot := mt
      (hOrder link hLink other hOther first hFound second
        hToo).mpr (Nat.not_lt.mpr hGe)
    have hNotToo := mt
      (hOrder other hOther link hLink second hToo first
        hFound).mpr (Nat.not_lt.mpr hLe)
    omega
  subst hSame
  rw [hFound, Option.some_inj] at hToo
  exact hToo

------------------------------------------------------------
-- The Clock
------------------------------------------------------------

theorem toInt_max
    (a b : Int64) :
    (max a b).toInt = max a.toInt b.toInt := by
  rw [show max a b = if a ≤ b then b else a from rfl]
  split
  case isTrue hLe =>
    rw [Int64.le_iff_toInt_le] at hLe
    omega
  case isFalse hGt =>
    rw [Int64.le_iff_toInt_le] at hGt
    omega

theorem toInt_min
    (a b : Int64) :
    (min a b).toInt = min a.toInt b.toInt := by
  rw [show min a b = if a ≤ b then a else b from rfl]
  split
  case isTrue hLe =>
    rw [Int64.le_iff_toInt_le] at hLe
    omega
  case isFalse hGt =>
    rw [Int64.le_iff_toInt_le] at hGt
    omega

/- The largest timestamp is reached by going through all. -/
theorem le_highest
    (now : Int64)
    (stored : List StoredHeader) :
    now.toInt ≤
        (stored.foldl
          (fun clock record =>
            max clock record.header.timestamp) now).toInt ∧
      ∀ record ∈ stored,
        record.header.timestamp.toInt ≤
          (stored.foldl
            (fun clock record =>
              max clock record.header.timestamp)
            now).toInt := by
  induction stored generalizing now with
  | nil => simp
  | cons first rest ih =>
      rcases ih (max now first.header.timestamp) with
        ⟨hNow, hRest⟩
      rw [toInt_max] at hNow
      refine ⟨by rw [List.foldl_cons]; omega, ?_⟩
      intro record hRecord
      rw [List.foldl_cons]
      rcases List.mem_cons.mp hRecord with rfl | hOld
      · omega
      · exact hRest record hOld

/- So no stored header is ahead of the clock, at any time. -/
theorem tooFarAhead_replayClock
    (now : Int64)
    {stored : List StoredHeader}
    {record : StoredHeader}
    (hRecord : record ∈ stored) :
    tooFarAhead record.header.timestamp
        (replayClock now stored) = false := by
  have hCeiling :
      (Int64.maxValue - maxFutureBlockSeconds).toInt =
        2 ^ 63 - 3601 := by decide
  have hSpan : maxFutureBlockSeconds.toInt = 3600 := by decide
  have hAll := (le_highest now stored).2 record hRecord
  have hUpper := record.header.timestamp.toInt_lt
  rw [tooFarAhead_eq_false_iff, replayClock, toInt_min,
    hCeiling, hSpan]
  generalize hHighest :
    (stored.foldl
      (fun clock record => max clock record.header.timestamp)
      now) = highest at hAll ⊢
  have hLower := highest.le_toInt
  unfold FitsInt64
  omega

------------------------------------------------------------
-- Replaying The Headers
------------------------------------------------------------

/- The index that the headers that were kept give again. -/
structure Rebuilt
    (c : Crypto)
    (params : ChainParams)
    (keep : Link → Bool)
    (tree : List Link)
    (index : BlockIndex) : Prop where
  ok : IndexOk c params index
  tree : index.tree = survivors keep tree
  eligible :
    ∀ entry ∈ index.entries, entry.isEligible = true

variable {keep : Link → Bool} {index : BlockIndex}

theorem Rebuilt.root
    (c : Crypto)
    (params : ChainParams)
    {keep : Link → Bool}
    (hKeep :
      keep (rootLink c (buildGenesisBlock c params).header) =
        true) :
    Rebuilt c params keep
      [rootLink c (buildGenesisBlock c params).header]
      (BlockIndex.forNetwork c params) where
  ok := IndexOk.forNetwork c params
  tree := by
    rw [survivors_cons_kept hKeep]
    rfl
  eligible := by
    intro entry hEntry
    rw [BlockIndex.forNetwork, BlockIndex.ofGenesis,
      List.mem_singleton] at hEntry
    rw [hEntry]
    rfl

/- A hash that is not in the tree is not in the index. -/
theorem Rebuilt.find_none
    (hRebuilt : Rebuilt c params keep tree index)
    {hash : Hash256}
    (hFresh : ∀ link ∈ tree, link.hash ≠ hash) :
    index.find hash = none := by
  cases hFound : index.find hash with
  | none => rfl
  | some entry =>
      rcases IndexOk.mem_of_find hFound with ⟨hEntry, hHash⟩
      have hLink := IndexOk.link_mem hEntry
      rw [hRebuilt.tree] at hLink
      rcases mem_survivors hLink with
        ⟨old, hOld, -, hUnordered⟩
      have hSame := (Link.of_unordered hUnordered).2.1
      exact absurd (hSame.symm.trans hHash) (hFresh old hOld)

/- What is found in the index is of a header that was kept. -/
theorem Rebuilt.keep_of_find
    (hTree : TreeOk c params tree)
    (hRebuilt : Rebuilt c params keep tree index)
    {link : Link}
    {entry : BlockIndexEntry}
    (hLink : link ∈ tree)
    (hFound : index.find link.hash = some entry) :
    keep link = true := by
  rcases IndexOk.mem_of_find hFound with ⟨hEntry, hHash⟩
  have hMember := IndexOk.link_mem hEntry
  rw [hRebuilt.tree] at hMember
  rcases mem_survivors hMember with
    ⟨old, hOld, hKeep, hUnordered⟩
  have hSame := (Link.of_unordered hUnordered).2.1
  have hEq := hTree.grown.key_injective hOld hLink
    (hSame.symm.trans hHash)
  rw [← hEq]
  exact hKeep

theorem Rebuilt.exists_entry
    (hRebuilt : Rebuilt c params keep tree index)
    {link : Link}
    (hLink : link ∈ tree)
    (hKeep : keep link = true) :
    ∃ entry ∈ index.entries,
      index.find link.hash = some entry ∧
        entry.toLink.unordered = link.unordered := by
  rcases exists_survivor hLink hKeep with
    ⟨twin, hTwin, hUnordered⟩
  rw [← hRebuilt.tree] at hTwin
  rcases List.mem_map.mp hTwin with ⟨entry, hEntry, rfl⟩
  refine ⟨entry, hEntry, ?_, hUnordered⟩
  rw [← (Link.of_unordered hUnordered).2.1]
  exact hRebuilt.ok.find_of_mem hEntry

section Child

variable {older : List Link} {parent : Link}
variable {header : BlockHeader} {now clock : Int64}

/- The rules accept a kept header again, below its parent. -/
theorem Rebuilt.addHeader
    (hOlder : TreeOk c params older)
    (hFresh : ∀ link ∈ older, link.hash ≠ header.hash c)
    (hParent : parent ∈ older)
    (hPrev : parent.hash = header.prevBlock)
    (hHeader : checkBlockHeader c header params = .ok ())
    (hContext :
      contextualCheckBlockHeader header
          (headerContextFor parent
            (ancestry older header.prevBlock) now params
            (some header.timestamp)) =
        .ok ())
    (hRoot :
      ∀ link ∈ older, link.parent = none → keep link = true)
    (hClosed : ParentClosed keep older)
    (hRebuilt : Rebuilt c params keep older index)
    (hClock : tooFarAhead header.timestamp clock = false)
    (hAbove : keep parent = true)
    (hKeep :
      keep (childLink c parent header older.length) = true) :
    ∃ after,
      index.addHeader c params header clock = .ok after ∧
        Rebuilt c params keep
          (childLink c parent header older.length :: older)
          after := by
  have hLine := (hOlder.survivors_lines hRoot hClosed).2
    parent hParent hAbove
  rcases hRebuilt.exists_entry hParent hAbove with
    ⟨entry, hEntry, hFound, hSame⟩
  rcases Link.of_unordered hSame with ⟨-, hHash, hWork, -⟩
  rw [hPrev] at hFound hLine
  have hNow :
      contextualCheckBlockHeader header
          (headerContextFor entry.toLink
            (index.lineage header.prevBlock) now params
            (some header.timestamp)) =
        .ok () := by
    have hLines :
        (index.lineage header.prevBlock).map
            Link.unordered =
          (ancestry older header.prevBlock).map
            Link.unordered := by
      rw [BlockIndex.lineage, hRebuilt.tree]
      exact hLine
    have hSameContext :
        headerContextFor entry.toLink
            (index.lineage header.prevBlock) now params
            (some header.timestamp) =
          headerContextFor parent
            (ancestry older header.prevBlock) now params
            (some header.timestamp) :=
      headerContextFor_congr now _ hSame hLines
    rw [hSameContext]
    exact hContext
  have hAdded := BlockIndex.addHeader_eq_ok.mpr (.inr
    ⟨hRebuilt.find_none hFresh, entry, hFound,
      hRebuilt.eligible entry hEntry, hHeader,
      contextualCheck_of_clock hClock hNow, rfl⟩)
  refine ⟨_, hAdded, hRebuilt.ok.addHeader hAdded, ?_, ?_⟩
  · have hNext :
        index.nextSequence = (survivors keep older).length := by
      rw [hRebuilt.ok.next, ← hRebuilt.tree, BlockIndex.tree,
        List.length_map]
    have hTop :
        childLink c entry.toLink header index.nextSequence =
          { childLink c parent header older.length with
            sequence := (survivors keep older).length } := by
      simp [childLink, hHash, hWork, hNext]
    rw [survivors_cons_kept hKeep, ← hTop, ← hRebuilt.tree]
    rfl
  · intro other hOther
    rcases List.mem_cons.mp hOther with rfl | hOld
    · rfl
    · exact hRebuilt.eligible other hOld

/- Below a header that was lost nothing is accepted. -/
theorem Rebuilt.keep_parent
    (hOlder : TreeOk c params older)
    (hFresh : ∀ link ∈ older, link.hash ≠ header.hash c)
    (hParent : parent ∈ older)
    (hPrev : parent.hash = header.prevBlock)
    (hRebuilt : Rebuilt c params keep older index)
    {after : BlockIndex}
    (hAdded :
      index.addHeader c params header clock = .ok after) :
    keep parent = true := by
  rcases BlockIndex.addHeader_eq_ok.mp hAdded with
    ⟨-, hKnown⟩ | ⟨-, entry, hFound, -⟩
  · rw [hRebuilt.find_none hFresh] at hKnown
    cases hKnown
  · rw [← hPrev] at hFound
    exact hRebuilt.keep_of_find hOlder hParent hFound

end Child

/- Raising a validity rebuilds nothing. -/
theorem Rebuilt.recordValidity
    (hRebuilt : Rebuilt c params keep tree index)
    (hash : Hash256)
    (reached : BlockValidity) :
    Rebuilt c params keep tree
      (index.recordValidity hash reached) where
  ok := hRebuilt.ok.recordValidity hash reached
  tree := by
    rw [BlockIndex.recordValidity_tree]
    exact hRebuilt.tree
  eligible := by
    intro entry hEntry
    rcases List.mem_map.mp hEntry with ⟨old, hOld, rfl⟩
    rw [BlockIndexEntry.isEligible,
      BlockIndex.raiseValidity_failure]
    exact hRebuilt.eligible old hOld

/- A header that is kept is kept with its parent. -/
theorem ParentClosed.cons
    {older : List Link}
    {link parent : Link}
    (hGrown : Arrival.Grown Link.hash Link.parent older)
    (hFresh : ∀ other ∈ older, other.hash ≠ link.hash)
    (hParent : parent ∈ older)
    (hLink : link.parent = some parent.hash)
    (hClosed : ParentClosed keep older)
    (hAbove : keep link = true → keep parent = true) :
    ParentClosed keep (link :: older) := by
  intro child hChild hKeep above hMember hHash
  rcases List.mem_cons.mp hChild with rfl | hOld
  · rw [hLink, Option.some_inj] at hHash
    rcases List.mem_cons.mp hMember with rfl | hOlder
    · exact absurd hHash (hFresh parent hParent)
    · rw [← hGrown.key_injective hParent hOlder hHash]
      exact hAbove hKeep
  · rcases List.mem_cons.mp hMember with rfl | hOlder
    · rcases hGrown.exists_parent hOld hHash with
        ⟨other, hOther, hSame⟩
      exact absurd hSame (hFresh other hOther)
    · exact hClosed child hOld hKeep above hOlder hHash

/- A record that is not of genesis goes through `addHeader`. -/
theorem replayHeader_eq_ok
    {clock : Int64}
    {loaded after : BlockIndex × Nat}
    {record : StoredHeader}
    (hNot :
      record.header ≠ (buildGenesisBlock c params).header) :
    replayHeader c params clock loaded record = .ok after ↔
      ∃ index,
        loaded.1.addHeader c params record.header clock =
            .ok index ∧
          after =
            (index.recordValidity (record.header.hash c)
              record.validity, loaded.2 + 1) := by
  rw [replayHeader, if_neg hNot]
  cases loaded.1.addHeader c params record.header clock with
  | error error => simp
  | ok index => simp [eq_comm]

/-
  The records go through exactly if every one of them comes
  with its parent's, and then they give the survivors.
-/
theorem replay_records
    {clock : Int64}
    (hTree : TreeOk c params tree)
    (hRecords :
      ∀ link ∈ tree, ∀ record,
        shelf.lookup link.hash = some record →
          record.header = link.header ∧
            tooFarAhead link.header.timestamp clock =
              false) :
    (ParentClosed (isShelved shelf) tree →
        ∃ loaded,
          (recordsOf tree shelf).foldlM
              (replayHeader c params clock)
              (BlockIndex.forNetwork c params, 0) =
            .ok loaded ∧
            Rebuilt c params (isShelved shelf) tree
              loaded.1) ∧
      ∀ loaded,
        (recordsOf tree shelf).foldlM
            (replayHeader c params clock)
            (BlockIndex.forNetwork c params, 0) =
          .ok loaded →
          ParentClosed (isShelved shelf) tree := by
  induction hTree with
  | genesis =>
      have hKeep :
          isShelved shelf
              (rootLink c
                (buildGenesisBlock c params).header) =
            true := isShelved_root rfl
      constructor
      · intro _
        refine ⟨(BlockIndex.forNetwork c params, 0), ?_,
          Rebuilt.root c params hKeep⟩
        rw [recordsOf_cons]
        cases hFound : shelf.lookup
            (rootLink c
              (buildGenesisBlock c params).header).hash with
        | none => rfl
        | some record =>
            have hSame := (hRecords _
              (List.mem_singleton.mpr rfl) record hFound).1
            simp [recordsOf, replayHeader, hSame, rootLink]
      · intro _ _ link hLink _ above _ hParent
        rw [List.mem_singleton.mp hLink] at hParent
        cases hParent
  | @add older parent header now hOlder hFresh hParent hPrev
      hHeader hContext ih =>
      have ih := ih fun link hLink =>
        hRecords link (List.mem_cons_of_mem _ hLink)
      have hChildParent :
          (childLink c parent header older.length).parent =
            some parent.hash := rfl
      rw [recordsOf_cons,
        show (childLink c parent header older.length).hash =
          header.hash c from rfl]
      cases hFound : shelf.lookup (header.hash c) with
      | none =>
          have hLost :
              isShelved shelf
                  (childLink c parent header older.length) =
                false := by
            rw [isShelved_child hChildParent]
            simp [childLink, hFound]
          simp only [Option.toList_none, List.append_nil]
          constructor
          · intro hClosed
            rcases ih.1 hClosed.older with
              ⟨loaded, hLoaded, hRebuilt⟩
            refine ⟨loaded, hLoaded, hRebuilt.ok, ?_,
              hRebuilt.eligible⟩
            rw [survivors_cons_lost hLost, hRebuilt.tree]
          · intro loaded hLoaded
            refine (ih.2 loaded hLoaded).cons hOlder.grown
              hFresh hParent hChildParent ?_
            rw [hLost]
            intro hNot
            cases hNot
      | some record =>
          have hKeep :
              isShelved shelf
                  (childLink c parent header older.length) =
                true := by
            rw [isShelved_child hChildParent]
            simp [childLink, hFound]
          rcases hRecords _ (List.mem_cons_self ..) record
            hFound with ⟨hSame, hClock⟩
          have hSameHeader : record.header = header := hSame
          have hNot :
              record.header ≠
                (buildGenesisBlock c params).header := by
            intro hGenesis
            apply hFresh _ hOlder.root_mem
            rw [← hSameHeader, hGenesis]
            rfl
          have hRoots : ∀ link ∈ older, link.parent = none →
              isShelved shelf link = true :=
            fun link _ hNone => isShelved_root hNone
          simp only [Option.toList_some, List.foldlM_append,
            List.foldlM_cons, List.foldlM_nil,
            except_bind_eq_ok, replayHeader_eq_ok hNot,
            hSameHeader]
          constructor
          · intro hClosed
            rcases ih.1 hClosed.older with
              ⟨loaded, hLoaded, hRebuilt⟩
            have hAbove := hClosed _ (List.mem_cons_self ..)
              hKeep parent (List.mem_cons_of_mem _ hParent)
              hChildParent
            rcases hRebuilt.addHeader hOlder hFresh hParent
              hPrev hHeader hContext hRoots hClosed.older
              hClock hAbove hKeep with
              ⟨after, hAdded, hNext⟩
            exact ⟨_, ⟨loaded, hLoaded, _,
                ⟨after, hAdded, rfl⟩, rfl⟩,
              hNext.recordValidity (header.hash c)
                record.validity⟩
          · rintro _ ⟨loaded, hLoaded, last,
              ⟨after, hAdded, -⟩, -⟩
            have hClosed := ih.2 loaded hLoaded
            rcases ih.1 hClosed with
              ⟨again, hAgain, hRebuilt⟩
            rw [hLoaded, Except.ok.injEq] at hAgain
            subst hAgain
            refine hClosed.cons hOlder.grown hFresh hParent
              hChildParent fun _ => ?_
            exact hRebuilt.keep_parent hOlder hFresh hParent
              hPrev hAdded

------------------------------------------------------------
-- Replaying The Failures
------------------------------------------------------------

/- Ruling a block out, whatever was ruled out before. -/
theorem eligible_recordFailure_iff
    (hIndex : IndexOk c params index)
    (root wanted : Hash256) :
    (index.recordFailure root).eligible wanted = true ↔
      index.eligible wanted = true ∧
        descendsFrom index.tree root wanted = false := by
  cases hRoot : index.eligible root with
  | true =>
      rw [BlockIndex.eligible_recordFailure hIndex hRoot]
      simp
  | false =>
      rw [BlockIndex.recordFailure_of_not_eligible hRoot]
      refine (and_iff_left_of_imp fun hWanted => ?_).symm
      rcases IndexOk.mem_of_eligible hWanted with
        ⟨link, hLink, rfl⟩
      -- What is above a block that is ruled out is, too.
      by_contra hDescends
      rw [Bool.not_eq_false, descendsFrom,
        decide_eq_true_eq, List.mem_map] at hDescends
      rcases hDescends with ⟨ancestor, hAncestor, rfl⟩
      have hAbove := hIndex.eligible_ancestor hLink hWanted
        hAncestor
      rw [hRoot] at hAbove
      cases hAbove

/- No ancestor of the block failed its own rules. -/
def Unblamed
    (c : Crypto)
    (tree : List Link)
    (stored : List StoredHeader)
    (hash : Hash256) : Prop :=
  ∀ record ∈ stored, record.failure = .itself →
    descendsFrom tree (record.header.hash c) hash = false

/- Failures are put back on all blocks above their cause. -/
theorem replay_failures
    (hIndex : IndexOk c params index)
    {stored : List StoredHeader}
    (hKnown :
      ∀ record ∈ stored, record.failure = .itself →
        ∃ link ∈ index.tree,
          link.hash = record.header.hash c) :
    ∃ after,
      stored.foldlM (replayFailure c) index = .ok after ∧
        IndexOk c params after ∧
        after.tree = index.tree ∧
        ∀ hash,
          after.eligible hash = true ↔
            index.eligible hash = true ∧
              Unblamed c index.tree stored hash := by
  induction stored generalizing index with
  | nil =>
      exact ⟨index, rfl, hIndex, rfl, fun hash => by
        simp [Unblamed]⟩
  | cons record rest ih =>
      rw [List.foldlM_cons]
      by_cases hItself : record.failure = .itself
      · rcases hKnown record (List.mem_cons_self ..) hItself
          with ⟨link, hLink, hHash⟩
        rcases List.mem_map.mp hLink with ⟨entry, hEntry, rfl⟩
        have hFound := hIndex.find_of_mem hEntry
        have hTree :=
          BlockIndex.recordFailure_tree hIndex entry.hash
        have hStep :
            replayFailure c index record =
              .ok (index.recordFailure entry.hash) := by
          rw [replayFailure, if_neg (not_not.mpr hItself),
            ← hHash, hFound]
        rcases ih (hIndex.recordFailure entry.hash) (by
          intro other hOther hFailed
          rw [hTree]
          exact hKnown other (List.mem_cons_of_mem _ hOther)
            hFailed) with
          ⟨after, hDone, hOk, hSame, hEligible⟩
        rw [hTree] at hSame hEligible
        rw [hStep]
        refine ⟨after, hDone, hOk, hSame, fun hash => ?_⟩
        rw [hEligible, eligible_recordFailure_iff hIndex,
          hHash, Unblamed, Unblamed, List.forall_mem_cons,
          and_assoc]
        simp [hItself]
      · have hStep :
            replayFailure c index record = .ok index := by
          rw [replayFailure, if_pos hItself]
        rcases ih hIndex (fun other hOther =>
          hKnown other (List.mem_cons_of_mem _ hOther)) with
          ⟨after, hDone, hOk, hSame, hEligible⟩
        rw [hStep]
        refine ⟨after, hDone, hOk, hSame, fun hash => ?_⟩
        rw [hEligible, Unblamed, Unblamed,
          List.forall_mem_cons]
        simp [hItself]

------------------------------------------------------------
-- The Tip
------------------------------------------------------------

/- The committed tip has to be there and not ruled out. -/
theorem resumedTip_some
    {tip resumed : Hash256} :
    resumedTip index (some tip) = .ok resumed ↔
      resumed = tip ∧ index.eligible tip = true := by
  unfold resumedTip BlockIndex.eligible
  cases hFound : index.find tip with
  | none => simp [hFound]
  | some entry =>
      have hHash := (IndexOk.mem_of_find hFound).2
      cases hEligible : entry.isEligible with
      | false => simp [hFound, hEligible]
      | true =>
          simp only [hFound, hEligible, Bool.not_true,
            Bool.false_eq_true, if_false, Except.ok.injEq,
            Option.any_some, and_true, hHash]
          exact eq_comm

------------------------------------------------------------
-- The Whole Of It
------------------------------------------------------------

/- The block is on record, and no failure at or below it. -/
def Standing
    (c : Crypto)
    (tree : List Link)
    (shelf : Shelf)
    (hash : Hash256) : Prop :=
  ∃ link ∈ tree,
    link.hash = hash ∧
      isShelved shelf link = true ∧
      Unblamed c tree (recordsOf tree shelf) hash

/- What loading gives back of a tree and its records. -/
structure Restored
    (c : Crypto)
    (params : ChainParams)
    (tree : List Link)
    (shelf : Shelf)
    (committed : Option Hash256)
    (loaded : LoadedChain) : Prop where
  ok : IndexOk c params loaded.index
  links :
    loaded.index.tree = survivors (isShelved shelf) tree
  eligible :
    ∀ hash,
      loaded.index.eligible hash = true ↔
        Standing c tree shelf hash
  tip :
    loaded.tip =
      committed.getD
        ((buildGenesisBlock c params).header.hash c)

/- Where a block is in line is the same for the survivors. -/
theorem descendsFrom_survivors
    (hTree : TreeOk c params tree)
    (hClosed : ParentClosed (isShelved shelf) tree)
    {link : Link}
    (hLink : link ∈ tree)
    (hKeep : isShelved shelf link = true)
    (root : Hash256) :
    descendsFrom (survivors (isShelved shelf) tree) root
        link.hash =
      descendsFrom tree root link.hash := by
  have hRoots : ∀ link ∈ tree, link.parent = none →
      isShelved shelf link = true :=
    fun link _ hNone => isShelved_root hNone
  have hSame := hTree.branch_survivors hRoots hClosed hLink
    hKeep
  unfold branch at hSame
  unfold descendsFrom
  rw [hSame]

theorem restoreChain_eq_ok
    {now : Int64}
    {stored : List StoredHeader}
    {committed : Option Hash256}
    {loaded : LoadedChain} :
    restoreChain c params now stored committed =
        .ok loaded ↔
      ∃ rebuilt,
        stored.foldlM
            (replayHeader c params (replayClock now stored))
            (BlockIndex.forNetwork c params, 0) =
          .ok rebuilt ∧
          ∃ index,
            stored.foldlM (replayFailure c) rebuilt.1 =
              .ok index ∧
              ∃ tip,
                resumedTip index committed = .ok tip ∧
                  loaded =
                    { index, tip, restored := rebuilt.2 } := by
  unfold restoreChain
  simp only [except_bind_eq_ok]
  constructor
  · rintro ⟨rebuilt, hFirst, index, hSecond, tip, hTip, hDone⟩
    cases hDone
    exact ⟨rebuilt, hFirst, index, hSecond, tip, hTip, rfl⟩
  · rintro ⟨rebuilt, hFirst, index, hSecond, tip, hTip, rfl⟩
    exact ⟨rebuilt, hFirst, index, hSecond, tip, hTip, rfl⟩

/- Both passes go through, with what they leave. -/
theorem replay_closed
    (hTree : TreeOk c params tree)
    (hShelved : Shelved fits tree shelf)
    (now : Int64)
    (hClosed : ParentClosed (isShelved shelf) tree) :
    ∃ rebuilt index,
      (recordsOf tree shelf).foldlM
          (replayHeader c params
            (replayClock now (recordsOf tree shelf)))
          (BlockIndex.forNetwork c params, 0) =
        .ok rebuilt ∧
        (recordsOf tree shelf).foldlM (replayFailure c)
            rebuilt.1 =
          .ok index ∧
        IndexOk c params index ∧
        index.tree = survivors (isShelved shelf) tree ∧
        ∀ hash,
          index.eligible hash = true ↔
            Standing c tree shelf hash := by
  have hRecords : ∀ link ∈ tree, ∀ record,
      shelf.lookup link.hash = some record →
        record.header = link.header ∧
          tooFarAhead link.header.timestamp
              (replayClock now (recordsOf tree shelf)) =
            false := by
    intro link hLink record hFound
    have hHeader := (hShelved.of_lookup hTree hLink hFound).1
    refine ⟨hHeader, ?_⟩
    rw [← hHeader]
    exact tooFarAhead_replayClock now
      (mem_recordsOf.mpr ⟨link, hLink, hFound⟩)
  rcases (replay_records hTree hRecords).1 hClosed with
    ⟨rebuilt, hFirst, hRebuilt⟩
  have hKnown : ∀ record ∈ recordsOf tree shelf,
      record.failure = .itself →
        ∃ link ∈ rebuilt.1.tree,
          link.hash = record.header.hash c := by
    intro record hRecord _
    rcases mem_recordsOf.mp hRecord with
      ⟨link, hLink, hFound⟩
    have hKeep : isShelved shelf link = true := by
      simp [isShelved, hFound]
    rcases exists_survivor hLink hKeep with
      ⟨twin, hTwin, hUnordered⟩
    refine ⟨twin, by rw [hRebuilt.tree]; exact hTwin, ?_⟩
    rw [(Link.of_unordered hUnordered).2.1,
      (hTree.header_of_mem hLink).1,
      (hRecords link hLink record hFound).1]
  rcases replay_failures hRebuilt.ok hKnown with
    ⟨index, hSecond, hOk, hSame, hEligible⟩
  rw [hRebuilt.tree] at hSame hEligible
  refine ⟨rebuilt, index, hFirst, hSecond, hOk, hSame, ?_⟩
  have hUnblamed : ∀ link ∈ tree,
      isShelved shelf link = true →
        (Unblamed c (survivors (isShelved shelf) tree)
            (recordsOf tree shelf) link.hash ↔
          Unblamed c tree (recordsOf tree shelf)
            link.hash) := by
    intro link hLink hKeep
    unfold Unblamed
    simp only [descendsFrom_survivors hTree hClosed hLink
      hKeep]
  intro hash
  rw [hEligible]
  constructor
  · rintro ⟨hBefore, hBlame⟩
    rcases IndexOk.mem_of_eligible hBefore with
      ⟨twin, hTwin, rfl⟩
    rw [hRebuilt.tree] at hTwin
    rcases mem_survivors hTwin with
      ⟨link, hLink, hKeep, hUnordered⟩
    have hHash := (Link.of_unordered hUnordered).2.1
    rw [hHash] at hBlame ⊢
    exact ⟨link, hLink, rfl, hKeep,
      (hUnblamed link hLink hKeep).mp hBlame⟩
  · rintro ⟨link, hLink, rfl, hKeep, hBlame⟩
    refine ⟨?_, (hUnblamed link hLink hKeep).mpr hBlame⟩
    rcases hRebuilt.exists_entry hLink hKeep with
      ⟨entry, hEntry, hFound, -⟩
    rw [BlockIndex.eligible, hFound, Option.any_some]
    exact hRebuilt.eligible entry hEntry

/-
  Loading succeeds exactly if every header on record has its
  parent on record, and nothing on record rules out the tip.
-/
theorem restoreChain_records
    (hTree : TreeOk c params tree)
    (hShelved : Shelved fits tree shelf)
    (now : Int64)
    (committed : Option Hash256) :
    ((∃ loaded,
        restoreChain c params now (recordsOf tree shelf)
            committed =
          .ok loaded) ↔
      ParentClosed (isShelved shelf) tree ∧
        ∀ tip, committed = some tip →
          Standing c tree shelf tip) ∧
      ∀ loaded,
        restoreChain c params now (recordsOf tree shelf)
            committed =
          .ok loaded →
          Restored c params tree shelf committed loaded := by
  have hOpened : ∀ loaded,
      restoreChain c params now (recordsOf tree shelf)
          committed =
        .ok loaded →
        ParentClosed (isShelved shelf) tree ∧
          (∀ tip, committed = some tip →
            Standing c tree shelf tip) ∧
          Restored c params tree shelf committed loaded := by
    intro loaded hLoaded
    rcases restoreChain_eq_ok.mp hLoaded with
      ⟨rebuilt, hFirst, index, hSecond, tip, hTip, rfl⟩
    have hClosed := (replay_records hTree (by
      intro link hLink record hFound
      have hHeader :=
        (hShelved.of_lookup hTree hLink hFound).1
      refine ⟨hHeader, ?_⟩
      rw [← hHeader]
      exact tooFarAhead_replayClock now
        (mem_recordsOf.mpr ⟨link, hLink, hFound⟩))).2
      rebuilt hFirst
    rcases replay_closed hTree hShelved now hClosed with
      ⟨again, other, hAgain, hOther, hOk, hSame, hEligible⟩
    rw [hFirst, Except.ok.injEq] at hAgain
    subst hAgain
    rw [hSecond, Except.ok.injEq] at hOther
    subst hOther
    refine ⟨hClosed, ?_, hOk, hSame, hEligible, ?_⟩
    · rintro wanted rfl
      exact (hEligible wanted).mp (resumedTip_some.mp hTip).2
    · cases committed with
      | none =>
          cases hTip
          exact hOk.genesis
      | some wanted => exact (resumedTip_some.mp hTip).1
  constructor
  · constructor
    · rintro ⟨loaded, hLoaded⟩
      rcases hOpened loaded hLoaded with
        ⟨hClosed, hStanding, -⟩
      exact ⟨hClosed, hStanding⟩
    · rintro ⟨hClosed, hStanding⟩
      rcases replay_closed hTree hShelved now hClosed with
        ⟨rebuilt, index, hFirst, hSecond, -, -, hEligible⟩
      have hTip :
          ∃ tip, resumedTip index committed = .ok tip := by
        cases committed with
        | none => exact ⟨_, rfl⟩
        | some wanted =>
            exact ⟨wanted, resumedTip_some.mpr ⟨rfl,
              (hEligible wanted).mpr
                (hStanding wanted rfl)⟩⟩
      rcases hTip with ⟨tip, hTip⟩
      exact ⟨_, restoreChain_eq_ok.mpr
        ⟨rebuilt, hFirst, index, hSecond, tip, hTip, rfl⟩⟩
  · intro loaded hLoaded
    exact (hOpened loaded hLoaded).2.2


end Amarian
