import Amarian.Mempool.Refusal
import Amarian.Mempool.Templates

/-
  The shape of a pool, and the orders in which the loops of
  the source may come across it.

  The sets and maps of the source are walked in an order that
  nothing fixes. `Orders` is one choice of these orders, and
  what is left after some entries were dropped depends on
  which entries these are, and on nothing else.

  Key definitions include:
    * `Mempool.ExactLinks`
    * `Mempool.ExactIndices`
    * `Mempool.Orders`
    * `Mempool.Prunes`

  Key theorems include:
    * `Mempool.ExactLinks.unlinkAll`
    * `Mempool.ExactIndices.unlinkAll`
    * `Mempool.Same.unlinkAll`
-/

------------------------------------------------------------
-- Exact Links
------------------------------------------------------------

namespace Amarian

namespace Mempool

/- Links are between entries, one of which spends from the
   other, and every such pair is linked at both ends. -/
structure ExactLinks
    (pool : Mempool) : Prop where
  inside :
    ∀ id links, pool.entries.lookup id = some links →
      ∀ other, other ∈ links.children ∨
          other ∈ links.parents →
        pool.contains other = true
  links :
    ∀ id links, pool.entries.lookup id = some links →
      ∀ other found,
        pool.entries.lookup other = some found →
          (other ∈ links.children ↔
            found.entry.names links.entry.txid) ∧
          (id ∈ found.parents ↔
            found.entry.names links.entry.txid)

/- No entry depends on itself. -/
def Acyclic
    (pool : Mempool) : Prop :=
  ∀ id, ¬pool.Beyond EntryInternal.parents id id

/- The indices are what the entries say. -/
structure ExactIndices
    (pool : Mempool) : Prop where
  spends :
    ∀ outpoint id, pool.spentBy outpoint = some id ↔
      ∃ links, pool.entries.lookup id = some links ∧
        links.entry.spends outpoint
  txids :
    ∀ txid id, pool.byTxid txid = some id ↔
      ∃ links, pool.entries.lookup id = some links ∧
        links.entry.txid = txid

theorem Exact.exactLinks
    {c : Crypto}
    {pool : Mempool}
    (hExact : pool.Exact c) :
    pool.ExactLinks :=
  ⟨hExact.inside, hExact.links⟩

theorem Exact.exactIndices
    {c : Crypto}
    {pool : Mempool}
    (hExact : pool.Exact c) :
    pool.ExactIndices :=
  ⟨hExact.spends, hExact.txids⟩

section Shaped

variable {pool : Mempool}

theorem ExactLinks.linked
    (hLinks : pool.ExactLinks) :
    pool.Linked := by
  constructor
  · intro id links hFound child hChild
    rcases contains_iff.mp
        (hLinks.inside id links hFound child (.inl hChild))
      with ⟨found, hOther⟩
    have hBoth := hLinks.links id links hFound child found
      hOther
    exact mem_linked.mpr
      ⟨found, hOther, hBoth.2.mpr (hBoth.1.mp hChild)⟩
  · intro id links hFound parent hParent
    rcases contains_iff.mp
        (hLinks.inside id links hFound parent (.inr hParent))
      with ⟨found, hOther⟩
    have hBoth := hLinks.links parent found hOther id links
      hFound
    exact mem_linked.mpr
      ⟨found, hOther, hBoth.1.mpr (hBoth.2.mp hParent)⟩

/- A parent is an entry whose id an input names. -/
theorem ExactLinks.mem_parents
    (hLinks : pool.ExactLinks)
    {id parent : Hash256}
    {links found : EntryInternal}
    (hFound : pool.entries.lookup id = some links)
    (hParent : pool.entries.lookup parent = some found) :
    parent ∈ pool.linked EntryInternal.parents id ↔
      links.entry.names found.entry.txid := by
  rw [← (hLinks.links parent found hParent id links hFound).2,
    mem_linked]
  constructor
  · rintro ⟨same, hSame, hIn⟩
    rw [hFound, Option.some_inj] at hSame
    rw [hSame]
    exact hIn
  · exact fun hIn => ⟨links, hFound, hIn⟩

theorem ExactLinks.unlinkAll
    (hLinks : pool.ExactLinks)
    (ids : List Hash256) :
    (pool.unlinkAll ids).ExactLinks := by
  have hLookup := hLinks.linked.lookup_unlinkAll ids
  have hOld :
      ∀ {id : Hash256} {links : EntryInternal},
        (pool.unlinkAll ids).entries.lookup id = some links →
          id ∉ ids ∧
            ∃ old, pool.entries.lookup id = some old ∧
              dropAll ids old = links := by
    intro id links hFound
    rw [hLookup] at hFound
    split at hFound
    · cases hFound
    · rename_i hKept
      exact ⟨hKept, Option.map_eq_some_iff.mp hFound⟩
  constructor
  · intro id links hFound other hOther
    rcases hOld hFound with ⟨-, old, hBefore, rfl⟩
    have hBoth : other ∉ ids ∧
        (other ∈ old.children ∨ other ∈ old.parents) := by
      rcases hOther with hChild | hParent
      · have hIn := List.mem_filter.mp hChild
        exact ⟨of_decide_eq_true hIn.2, .inl hIn.1⟩
      · have hIn := List.mem_filter.mp hParent
        exact ⟨of_decide_eq_true hIn.2, .inr hIn.1⟩
    rcases contains_iff.mp
        (hLinks.inside id old hBefore other hBoth.2) with
      ⟨found, hThere⟩
    refine contains_iff.mpr ⟨dropAll ids found, ?_⟩
    rw [hLookup, if_neg hBoth.1, hThere]
    rfl
  · intro id links hFound other found hOther
    rcases hOld hFound with ⟨hKept, old, hBefore, rfl⟩
    rcases hOld hOther with ⟨hAlso, held, hHeld, rfl⟩
    have hBoth := hLinks.links id old hBefore other held hHeld
    refine ⟨Iff.trans ?_ hBoth.1, Iff.trans ?_ hBoth.2⟩
    · rw [children_dropAll, List.mem_filter,
        decide_eq_true_eq]
      exact and_iff_left hAlso
    · rw [parents_dropAll, List.mem_filter,
        decide_eq_true_eq]
      exact and_iff_left hKept

theorem ExactIndices.indexed
    (hIndices : pool.ExactIndices) :
    pool.Indexed where
  spends := fun outpoint id hSpent =>
    (hIndices.spends outpoint id).mp hSpent
  txids := fun txid id hIndexed =>
    (hIndices.txids txid id).mp hIndexed

theorem ExactIndices.unlinkAll
    (hIndices : pool.ExactIndices)
    (hLinks : pool.ExactLinks)
    (ids : List Hash256) :
    (pool.unlinkAll ids).ExactIndices := by
  have hLinked := hLinks.linked
  have hLookup := hLinked.lookup_unlinkAll ids
  -- what is left of an entry says the same of its inputs
  have hLeft :
      ∀ (test : Entry → Prop) (id : Hash256),
        (∃ links,
            (pool.unlinkAll ids).entries.lookup id =
                some links ∧
              test links.entry) ↔
          id ∉ ids ∧
            ∃ links, pool.entries.lookup id = some links ∧
              test links.entry := by
    intro test id
    rw [hLookup]
    by_cases hGone : id ∈ ids
    · simp [hGone]
    · rw [if_neg hGone]
      constructor
      · rintro ⟨links, hFound, hTest⟩
        rcases Option.map_eq_some_iff.mp hFound with
          ⟨old, hOld, rfl⟩
        exact ⟨hGone, old, hOld, hTest⟩
      · rintro ⟨-, old, hOld, hTest⟩
        exact ⟨dropAll ids old, by rw [hOld]; rfl, hTest⟩
  constructor
  · intro outpoint id
    rw [hIndices.indexed.spentBy_unlinkAll hLinked,
      hIndices.spends,
      hLeft fun entry => entry.spends outpoint]
  · intro txid id
    rw [hIndices.indexed.byTxid_unlinkAll hLinked,
      hIndices.txids, hLeft fun entry => entry.txid = txid]

end Shaped

------------------------------------------------------------
-- What Is Left
------------------------------------------------------------

section Left

variable {pool : Mempool}

theorem exactWeight_unlink_le
    (pool : Mempool)
    (id : Hash256) :
    (pool.unlink id).exactWeight ≤ pool.exactWeight := by
  cases hFound : pool.entries.lookup id with
  | none => rw [unlink_of_absent hFound]
  | some doomed =>
      have hTotal :=
        total_unlink (fun entry => (entry.weight : Int)) hFound
      unfold exactWeight
      omega

theorem exactWeight_unlinkAll_le
    (pool : Mempool)
    (ids : List Hash256) :
    (pool.unlinkAll ids).exactWeight ≤ pool.exactWeight := by
  induction ids generalizing pool with
  | nil => exact Int.le_refl _
  | cons id ids ih =>
      exact (ih (pool.unlink id)).trans
        (exactWeight_unlink_le pool id)

/- The totals lose what the entries lose. -/
theorem totalWeight_unlink
    (pool : Mempool)
    (id : Hash256) :
    (pool.unlink id).totalWeight =
      pool.totalWeight -
        (pool.exactWeight -
          (pool.unlink id).exactWeight).toNat := by
  cases hFound : pool.entries.lookup id with
  | none =>
      rw [unlink_of_absent hFound, Int.sub_self]
      rfl
  | some doomed =>
      have hTotal :=
        total_unlink (fun entry => (entry.weight : Int)) hFound
      have hLeft :
          (pool.unlink id).totalWeight =
            pool.totalWeight - doomed.entry.weight := by
        unfold unlink
        rw [hFound]
      rw [hLeft]
      unfold exactWeight
      omega

theorem totalWeight_unlinkAll
    (pool : Mempool)
    (ids : List Hash256) :
    (pool.unlinkAll ids).totalWeight =
      pool.totalWeight -
        (pool.exactWeight -
          (pool.unlinkAll ids).exactWeight).toNat := by
  induction ids generalizing pool with
  | nil =>
      change pool.totalWeight =
        pool.totalWeight -
          (pool.exactWeight - pool.exactWeight).toNat
      omega
  | cons id ids ih =>
      have hRest := ih (pool.unlink id)
      have hHere := totalWeight_unlink pool id
      have hLess := exactWeight_unlink_le pool id
      have hLater :=
        exactWeight_unlinkAll_le (pool.unlink id) ids
      change ((pool.unlink id).unlinkAll ids).totalWeight =
        pool.totalWeight -
          (pool.exactWeight -
            ((pool.unlink id).unlinkAll
              ids).exactWeight).toNat
      omega

theorem totalFees_unlink
    (pool : Mempool)
    (id : Hash256) :
    (pool.unlink id).totalFees =
      pool.totalFees -
        Int64.ofInt
          (pool.exactFees - (pool.unlink id).exactFees) := by
  cases hFound : pool.entries.lookup id with
  | none =>
      rw [unlink_of_absent hFound, Int.sub_self]
      exact (Int64.sub_zero _).symm
  | some doomed =>
      have hTotal :=
        total_unlink (fun entry => entry.fee.toInt) hFound
      have hLeft :
          (pool.unlink id).totalFees =
            pool.totalFees - doomed.entry.fee := by
        unfold unlink
        rw [hFound]
      have hFee :
          pool.exactFees - (pool.unlink id).exactFees =
            doomed.entry.fee.toInt := by
        unfold exactFees
        omega
      rw [hLeft, hFee, Int64.ofInt_toInt]

theorem totalFees_unlinkAll
    (pool : Mempool)
    (ids : List Hash256) :
    (pool.unlinkAll ids).totalFees =
      pool.totalFees -
        Int64.ofInt
          (pool.exactFees -
            (pool.unlinkAll ids).exactFees) := by
  induction ids generalizing pool with
  | nil =>
      change pool.totalFees =
        pool.totalFees -
          Int64.ofInt (pool.exactFees - pool.exactFees)
      rw [Int.sub_self]
      exact (Int64.sub_zero _).symm
  | cons id ids ih =>
      have hSum :
          pool.exactFees -
              ((pool.unlink id).unlinkAll ids).exactFees =
            (pool.exactFees - (pool.unlink id).exactFees) +
              ((pool.unlink id).exactFees -
                ((pool.unlink id).unlinkAll
                  ids).exactFees) := by
        omega
      change ((pool.unlink id).unlinkAll ids).totalFees =
        pool.totalFees -
          Int64.ofInt
            (pool.exactFees -
              ((pool.unlink id).unlinkAll ids).exactFees)
      rw [ih (pool.unlink id), totalFees_unlink, hSum,
        Int64.ofInt_add]
      grind

end Left

------------------------------------------------------------
-- Pools That Stay The Same
------------------------------------------------------------

namespace Same

variable {pool other : Mempool}

theorem linked_eq
    (hSame : pool.Same other)
    (side : EntryInternal → List Hash256) :
    other.linked side = pool.linked side := by
  funext id
  unfold Mempool.linked
  rw [hSame.entries]

theorem linked
    (hSame : pool.Same other)
    (hLinked : pool.Linked) :
    other.Linked := by
  constructor
  · intro id links hFound child hChild
    rw [hSame.entries] at hFound
    rw [hSame.linked_eq]
    exact hLinked.down id links hFound child hChild
  · intro id links hFound parent hParent
    rw [hSame.entries] at hFound
    rw [hSame.linked_eq]
    exact hLinked.up id links hFound parent hParent

theorem find
    (hSame : pool.Same other)
    (id : Hash256) :
    other.find id = pool.find id := by
  unfold Mempool.find
  rw [hSame.entries]

theorem mem_wtxids
    (hSame : pool.Same other)
    (id : Hash256) :
    id ∈ other.wtxids ↔ id ∈ pool.wtxids := by
  rw [Mempool.mem_wtxids, Mempool.mem_wtxids, hSame.contains]

theorem perm_reached
    (hSame : pool.Same other)
    (side : EntryInternal → List Hash256)
    (id : Hash256) :
    (other.reached side id).Perm (pool.reached side id) := by
  rw [List.perm_ext_iff_of_nodup
    (nodup_reached side other id) (nodup_reached side pool id)]
  intro next
  rw [mem_reached, mem_reached, hSame.contains]
  unfold Reaches
  rw [hSame.linked_eq]

/- Who leaves decides what is left, not in which order. -/
theorem unlinkAll
    (hSame : pool.Same other)
    (hLinked : pool.Linked)
    {first second : List Hash256}
    (hMembers : ∀ id, id ∈ first ↔ id ∈ second) :
    (pool.unlinkAll first).Same (other.unlinkAll second) := by
  have hOther := hSame.linked hLinked
  have hDrop :
      (dropAll second : EntryInternal → EntryInternal) =
        dropAll first := by
    funext links
    simp only [dropAll, hMembers]
  have hLookup :
      ∀ id,
        (other.unlinkAll second).entries.lookup id =
          (pool.unlinkAll first).entries.lookup id := by
    intro id
    rw [hOther.lookup_unlinkAll, hLinked.lookup_unlinkAll,
      hDrop, hSame.entries]
    simp only [hMembers]
  have hWeight :
      (other.unlinkAll second).exactWeight =
        (pool.unlinkAll first).exactWeight :=
    Table.total_congr hLookup
  have hFees :
      (other.unlinkAll second).exactFees =
        (pool.unlinkAll first).exactFees :=
    Table.total_congr hLookup
  have hWeightBefore : other.exactWeight = pool.exactWeight :=
    Table.total_congr hSame.entries
  have hFeesBefore : other.exactFees = pool.exactFees :=
    Table.total_congr hSame.entries
  constructor
  · exact hLookup
  · funext outpoint
    apply Option.ext
    intro id
    rw [index_unlinkAll Mempool.spentBy Entry.spends
        spentBy_unlink_iff hOther,
      index_unlinkAll Mempool.spentBy Entry.spends
        spentBy_unlink_iff hLinked,
      hSame.spentBy, hSame.find, hMembers]
  · funext txid
    apply Option.ext
    intro id
    rw [index_unlinkAll Mempool.byTxid
        (fun entry txid => entry.txid = txid)
        byTxid_unlink_iff hOther,
      index_unlinkAll Mempool.byTxid
        (fun entry txid => entry.txid = txid)
        byTxid_unlink_iff hLinked,
      hSame.byTxid, hSame.find, hMembers]
  · rw [totalWeight_unlinkAll, totalWeight_unlinkAll, hWeight,
      hWeightBefore, hSame.weight]
  · rw [totalFees_unlinkAll, totalFees_unlinkAll, hFees,
      hFeesBefore, hSame.fees]

end Same

------------------------------------------------------------
-- Orders
------------------------------------------------------------

/-
  One choice of the orders in which the entries are walked,
  and for each entry its descendants, when their fees are
  summed and when they are removed, and its ancestors.
-/
structure Orders
    (pool : Mempool) where
  keys : List Hash256
  summed : Hash256 → List Hash256
  dropped : Hash256 → List Hash256
  gathered : Hash256 → List Hash256
  keys_perm : keys.Perm pool.wtxids
  summed_perm :
    ∀ id, (summed id).Perm (pool.descendantsOf id)
  dropped_perm :
    ∀ id, (dropped id).Perm (pool.descendantsOf id)
  gathered_perm :
    ∀ id, (gathered id).Perm (pool.ancestorsOf id)

/- The orders of the lists. -/
def Orders.listed
    (pool : Mempool) : pool.Orders where
  keys := pool.wtxids
  summed := pool.descendantsOf
  dropped := pool.descendantsOf
  gathered := pool.ancestorsOf
  keys_perm := List.Perm.refl _
  summed_perm := fun _ => List.Perm.refl _
  dropped_perm := fun _ => List.Perm.refl _
  gathered_perm := fun _ => List.Perm.refl _

theorem totalsOf_perm
    (pool : Mempool)
    {first second : List Hash256}
    (hPerm : first.Perm second) :
    pool.totalsOf first = pool.totalsOf second := by
  unfold totalsOf
  apply hPerm.foldl_eq'
  intro id _ other _ totals
  cases pool.find id with
  | none => rfl
  | some entry =>
      cases pool.find other with
      | none => rfl
      | some found =>
          have hFees :
              totals.1 + entry.fee + found.fee =
                totals.1 + found.fee + entry.fee := by
            grind
          have hWeights :
              totals.2 + entry.weight + found.weight =
                totals.2 + found.weight + entry.weight := by
            omega
          dsimp only
          rw [hFees, hWeights]

------------------------------------------------------------
-- Whole Families
------------------------------------------------------------

/- The same, in any order of the links. -/
def removeRecursiveBy
    {pool : Mempool}
    (orders : pool.Orders)
    (wtxid : Hash256) : Nat × Mempool :=
  let doomed := orders.dropped wtxid
  (doomed.length, doomed.foldl unlink pool)

section Families

variable {pool : Mempool}

/- An entry that stays was there before. -/
theorem entry_unlinkAll
    (hLinked : pool.Linked)
    {ids : List Hash256}
    {id : Hash256}
    {links : EntryInternal}
    (hFound :
      (pool.unlinkAll ids).entries.lookup id = some links) :
    id ∉ ids ∧
      ∃ old, pool.entries.lookup id = some old ∧
        links.entry = old.entry := by
  rw [hLinked.lookup_unlinkAll] at hFound
  split at hFound
  · cases hFound
  · rename_i hKept
    rcases Option.map_eq_some_iff.mp hFound with
      ⟨old, hOld, rfl⟩
    exact ⟨hKept, old, hOld, rfl⟩

theorem find_unlinkAll
    (hLinked : pool.Linked)
    (ids : List Hash256)
    (id : Hash256) :
    (pool.unlinkAll ids).find id =
      if id ∈ ids then none else pool.find id := by
  unfold find
  rw [hLinked.lookup_unlinkAll]
  split
  · rfl
  · rw [Option.map_map]
    rfl

/- What leaves takes along all that descends from it. -/
def Prunes
    (pool after : Mempool) : Prop :=
  ∃ ids, after = pool.unlinkAll ids ∧
    ∀ id ∈ ids,
      ∀ child ∈ pool.linked EntryInternal.children id,
        child ∈ ids

theorem Prunes.refl
    (pool : Mempool) :
    pool.Prunes pool :=
  ⟨[], rfl, fun _ hId => nomatch hId⟩

theorem Prunes.trans
    {middle after : Mempool}
    (hLinked : pool.Linked)
    (hFirst : pool.Prunes middle)
    (hSecond : middle.Prunes after) :
    pool.Prunes after := by
  rcases hFirst with ⟨ids, rfl, hClosed⟩
  rcases hSecond with ⟨more, rfl, hMore⟩
  refine ⟨ids ++ more, (List.foldl_append ..).symm, ?_⟩
  intro id hId child hChild
  rw [List.mem_append] at hId ⊢
  by_cases hHere : id ∈ ids
  · exact .inl (hClosed id hHere child hChild)
  by_cases hGone : child ∈ ids
  · exact .inl hGone
  · refine .inr (hMore id (hId.resolve_left hHere) child ?_)
    exact (hLinked.mem_linked_unlinkAll children_dropAll ids
      id child).mpr ⟨hHere, hGone, hChild⟩

theorem removeRecursiveBy_prunes
    (orders : pool.Orders)
    (id : Hash256) :
    pool.Prunes (removeRecursiveBy orders id).2 := by
  refine ⟨orders.dropped id, rfl, ?_⟩
  intro other hOther child hChild
  rw [(orders.dropped_perm id).mem_iff] at hOther ⊢
  rcases mem_reached.mp hOther with ⟨hStart, hReaches⟩
  exact mem_reached.mpr ⟨hStart, hReaches.tail hChild⟩

/- Nobody is left waiting for what has gone. -/
theorem Prunes.not_names
    {after : Mempool}
    (hPrunes : pool.Prunes after)
    (hLinks : pool.ExactLinks)
    {id gone : Hash256}
    {links : EntryInternal}
    {entry : Entry}
    (hFound : after.entries.lookup id = some links)
    (hBefore : pool.find gone = some entry)
    (hGone : after.find gone = none) :
    ¬links.entry.names entry.txid := by
  rcases hPrunes with ⟨ids, rfl, hClosed⟩
  intro hNames
  rcases entry_unlinkAll hLinks.linked hFound with
    ⟨hKept, old, hOld, hEntry⟩
  rcases Option.map_eq_some_iff.mp hBefore with
    ⟨found, hThere, rfl⟩
  have hMember : gone ∈ ids := by
    by_contra hNot
    rw [find_unlinkAll hLinks.linked, if_neg hNot,
      hBefore] at hGone
    cases hGone
  rw [hEntry] at hNames
  have hChild :
      id ∈ pool.linked EntryInternal.children gone :=
    mem_linked.mpr ⟨found, hThere,
      (hLinks.links gone found hThere id old hOld).1.mpr
        hNames⟩
  exact hKept (hClosed gone hMember id hChild)

end Families

end Mempool

end Amarian
