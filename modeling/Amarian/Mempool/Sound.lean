import Amarian.Mempool.Links
import Amarian.Util.Overflow
import Mathlib.Data.Set.Card

/-
  What every pool keeps, whatever it is offered.

  Links point both ways, follow the inputs and go nowhere
  twice; the spent outpoints are exact; an indexed id is that
  of an entry; the totals are the sums over the entries, the
  fees up to the machine's wrap; and no entry has more
  relatives than the pool allows.

  Nothing here depends on what the hash functions do.

  Key definitions include:
    * `Entry.Admitted`
    * `Mempool.Beyond`
    * `Mempool.Sound`
    * `Mempool.Fits`

  Key theorems include:
    * `Mempool.Sound.unlinkAll`
    * `Mempool.Sound.insertEntry`
-/

------------------------------------------------------------
-- The Invariant
------------------------------------------------------------

namespace Amarian

/- The entry's own fields agree with its transaction. -/
structure Entry.Admitted
    (c : Crypto)
    (id : Hash256)
    (entry : Entry) : Prop where
  wtxid : entry.wtxid = id
  key : entry.tx.wtxid c = id
  txid : entry.txid = entry.tx.txid c
  weight : entry.weight = entry.tx.weight
  heavy : 0 < entry.weight
  light : entry.weight ≤ maxMempoolWeight
  inputs : entry.tx.inputs ≠ []
  fee : 0 < entry.fee.toInt
  afford : entry.fee.toInt ≤ maxMoney.toInt

/- One of its inputs names the outpoint. -/
def Entry.spends
    (entry : Entry)
    (outpoint : OutPoint) : Prop :=
  outpoint ∈ entry.tx.inputs.map TxInput.outpoint

/- One of its inputs names the transaction. -/
def Entry.names
    (entry : Entry)
    (txid : Hash256) : Prop :=
  ∃ input ∈ entry.tx.inputs, input.outpoint.txid = txid

namespace Mempool

/- Where one or more links of one side lead. -/
def Beyond
    (side : EntryInternal → List Hash256)
    (pool : Mempool) :
    Hash256 → Hash256 → Prop :=
  Relation.TransGen
    fun id other => other ∈ pool.linked side id

/- What every call on the pool keeps. -/
structure Sound
    (c : Crypto)
    (pool : Mempool) : Prop where
  linked : pool.Linked
  admitted :
    ∀ id links, pool.entries.lookup id = some links →
      links.entry.Admitted c id
  named :
    ∀ id links, pool.entries.lookup id = some links →
      ∀ parent ∈ links.parents, ∀ other,
        pool.entries.lookup parent = some other →
          links.entry.names other.entry.txid
  spends :
    ∀ outpoint id, pool.spentBy outpoint = some id ↔
      ∃ links, pool.entries.lookup id = some links ∧
        links.entry.spends outpoint
  indexed :
    ∀ txid id, pool.byTxid txid = some id →
      ∃ links, pool.entries.lookup id = some links ∧
        links.entry.txid = txid
  weight : (pool.totalWeight : Int) = pool.exactWeight
  fees : pool.totalFees = Int64.ofInt pool.exactFees
  ranked :
    ∃ rank : Hash256 → Nat,
      ∀ id, ∀ parent ∈ pool.linked EntryInternal.parents id,
        rank parent < rank id
  ancestors :
    ∀ id,
      {other |
        pool.Beyond EntryInternal.parents id other}.encard ≤
          maxMempoolAncestors
  descendants :
    ∀ id,
      {other |
        pool.Beyond EntryInternal.children id
          other}.encard ≤ maxMempoolDescendants

theorem Sound.empty
    (c : Crypto) :
    Mempool.empty.Sound c := by
  have hNothing :
      ∀ id, Mempool.empty.entries.lookup id = none :=
    fun id => AList.lookup_empty id
  have hNone :
      ∀ side id other,
        ¬Mempool.empty.Beyond side id other := by
    intro side id other hBeyond
    rcases Relation.TransGen.head'_iff.mp hBeyond with
      ⟨next, hNext, -⟩
    rcases mem_linked.mp hNext with ⟨links, hFound, -⟩
    rw [hNothing] at hFound
    cases hFound
  have hAbsent :
      ∀ {α : Prop} {id : Hash256} {links : EntryInternal},
        Mempool.empty.entries.lookup id = some links → α := by
    intro α id links hFound
    rw [hNothing] at hFound
    cases hFound
  exact
    { linked :=
        ⟨fun _ _ hFound => hAbsent hFound,
          fun _ _ hFound => hAbsent hFound⟩
      admitted := fun _ _ hFound => hAbsent hFound
      named := fun _ _ hFound => hAbsent hFound
      spends := fun outpoint id =>
        ⟨nofun, fun ⟨_, hFound, _⟩ => hAbsent hFound⟩
      indexed := fun _ _ hIndexed => nomatch hIndexed
      weight := rfl
      fees := rfl
      ranked := by
        refine ⟨fun _ => 0, ?_⟩
        intro id parent hParent
        exact absurd (.single hParent)
          (hNone EntryInternal.parents id parent)
      ancestors := by simp [hNone]
      descendants := by simp [hNone] }

theorem Linked.beyond_comm
    {pool : Mempool}
    (hLinked : pool.Linked)
    {id other : Hash256} :
    pool.Beyond EntryInternal.children id other ↔
      pool.Beyond EntryInternal.parents other id := by
  unfold Beyond
  rw [← Relation.transGen_swap]
  simp only [hLinked.mem_linked_comm]

------------------------------------------------------------
-- Removal
------------------------------------------------------------

/- What an entry was before others left the pool. -/
theorem Linked.lookup_unlink_eq_some
    {pool : Mempool}
    (hLinked : pool.Linked)
    {id other : Hash256}
    {links : EntryInternal} :
    (pool.unlink id).entries.lookup other = some links ↔
      other ≠ id ∧
        ∃ old, pool.entries.lookup other = some old ∧
          dropAll [id] old = links := by
  rw [hLinked.lookup_unlink]
  split
  · rename_i hSame
    simp [hSame]
  · rename_i hNe
    rw [Option.map_eq_some_iff]
    exact (and_iff_right hNe).symm

theorem linked_unlink_subset
    {pool : Mempool}
    (hLinked : pool.Linked)
    {side : EntryInternal → List Hash256}
    (hSide :
      ∀ ids links,
        side (dropAll ids links) =
          (side links).filter (· ∉ ids))
    {id here other : Hash256}
    (hMember : other ∈ (pool.unlink id).linked side here) :
    other ∈ pool.linked side here :=
  ((hLinked.mem_linked_unlinkAll hSide [id] here other).mp
    hMember).2.2

theorem parents_dropAll
    (ids : List Hash256)
    (links : EntryInternal) :
    (dropAll ids links).parents =
      links.parents.filter (· ∉ ids) :=
  rfl

theorem children_dropAll
    (ids : List Hash256)
    (links : EntryInternal) :
    (dropAll ids links).children =
      links.children.filter (· ∉ ids) :=
  rfl

theorem encard_beyond_mono
    {pool other : Mempool}
    {side : EntryInternal → List Hash256}
    (hSubset :
      ∀ id, ∀ next ∈ pool.linked side id,
        next ∈ other.linked side id)
    (id : Hash256) :
    {next | pool.Beyond side id next}.encard ≤
      {next | other.Beyond side id next}.encard := by
  apply Set.encard_le_encard
  intro next hNext
  exact Relation.TransGen.mono hSubset _ _ hNext

theorem find_unlink
    {pool : Mempool}
    (hLinked : pool.Linked)
    (id other : Hash256) :
    (pool.unlink id).find other =
      if other = id then none else pool.find other := by
  unfold find
  rw [hLinked.lookup_unlink]
  split
  · rfl
  · rw [Option.map_map]
    rfl

theorem find_of_lookup
    {pool : Mempool}
    {id : Hash256}
    {links : EntryInternal}
    (hFound : pool.entries.lookup id = some links) :
    pool.find id = some links.entry := by
  rw [find, hFound]
  rfl

/- What an index keeps when entries leave. -/
theorem index_unlinkAll
    {κ : Type}
    (index : Mempool → κ → Option Hash256)
    (holds : Entry → κ → Prop)
    (hStep :
      ∀ (pool : Mempool) (id : Hash256) (key : κ)
          (other : Hash256),
        index (pool.unlink id) key = some other ↔
          index pool key = some other ∧
            ¬(other = id ∧
              ∃ entry, pool.find other = some entry ∧
                holds entry key))
    {pool : Mempool}
    (hLinked : pool.Linked)
    (ids : List Hash256)
    (key : κ)
    (other : Hash256) :
    index (pool.unlinkAll ids) key = some other ↔
      index pool key = some other ∧
        ¬(other ∈ ids ∧
          ∃ entry, pool.find other = some entry ∧
            holds entry key) := by
  induction ids generalizing pool with
  | nil =>
      change index pool key = some other ↔ _
      simp
  | cons id ids ih =>
      change index ((pool.unlink id).unlinkAll ids) key =
        some other ↔ _
      rw [ih (hLinked.unlink id), hStep, find_unlink hLinked,
        List.mem_cons]
      by_cases hHere : other = id
      · subst hHere
        simp
      · simp [hHere]

theorem spentBy_unlink_iff
    (pool : Mempool)
    (id : Hash256)
    (outpoint : OutPoint)
    (other : Hash256) :
    (pool.unlink id).spentBy outpoint = some other ↔
      pool.spentBy outpoint = some other ∧
        ¬(other = id ∧
          ∃ entry, pool.find other = some entry ∧
            entry.spends outpoint) := by
  unfold find
  cases hFound : pool.entries.lookup id with
  | none =>
      rw [unlink_of_absent hFound]
      refine ⟨fun hSpent => ⟨hSpent, ?_⟩, And.left⟩
      rintro ⟨rfl, entry, hEntry, -⟩
      rw [hFound] at hEntry
      cases hEntry
  | some doomed =>
      unfold unlink
      rw [hFound]
      change releaseInputs id doomed.entry.tx.inputs
        pool.spentBy outpoint = some other ↔ _
      rw [releaseInputs_apply]
      split
      · rename_i hOwn
        refine ⟨nofun, ?_⟩
        rintro ⟨hSpent, hKept⟩
        rw [hOwn.2, Option.some_inj] at hSpent
        subst hSpent
        refine absurd ⟨rfl, doomed.entry, ?_, hOwn.1⟩ hKept
        rw [hFound]
        rfl
      · rename_i hOther
        refine ⟨fun hSpent => ⟨hSpent, ?_⟩, And.left⟩
        rintro ⟨rfl, entry, hEntry, hSpends⟩
        rw [hFound] at hEntry
        cases hEntry
        exact hOther ⟨hSpends, hSpent⟩

theorem byTxid_unlink_iff
    (pool : Mempool)
    (id txid other : Hash256) :
    (pool.unlink id).byTxid txid = some other ↔
      pool.byTxid txid = some other ∧
        ¬(other = id ∧
          ∃ entry, pool.find other = some entry ∧
            entry.txid = txid) := by
  unfold find
  cases hFound : pool.entries.lookup id with
  | none =>
      rw [unlink_of_absent hFound]
      refine ⟨fun hIndexed => ⟨hIndexed, ?_⟩, And.left⟩
      rintro ⟨rfl, entry, hEntry, -⟩
      rw [hFound] at hEntry
      cases hEntry
  | some doomed =>
      unfold unlink
      rw [hFound]
      change (if pool.byTxid doomed.entry.txid = some id
        then Function.update pool.byTxid doomed.entry.txid none
        else pool.byTxid) txid = some other ↔ _
      by_cases hOwn : pool.byTxid txid = some id ∧
          doomed.entry.txid = txid
      · rcases hOwn with ⟨hIndexed, rfl⟩
        rw [if_pos hIndexed, Function.update_self]
        refine ⟨nofun, ?_⟩
        rintro ⟨hOther, hKept⟩
        rw [hIndexed, Option.some_inj] at hOther
        subst hOther
        refine absurd ⟨rfl, doomed.entry, ?_, rfl⟩ hKept
        rw [hFound]
        rfl
      · have hSame :
            (if pool.byTxid doomed.entry.txid = some id then
                Function.update pool.byTxid
                  doomed.entry.txid none
              else pool.byTxid) txid =
              pool.byTxid txid := by
          split
          · rename_i hHere
            refine Function.update_of_ne ?_ ..
            rintro rfl
            exact hOwn ⟨hHere, rfl⟩
          · rfl
        rw [hSame]
        refine ⟨fun hIndexed => ⟨hIndexed, ?_⟩, And.left⟩
        rintro ⟨rfl, entry, hEntry, hTxid⟩
        rw [hFound] at hEntry
        cases hEntry
        exact hOwn ⟨hIndexed, hTxid⟩

/- The indices name entries of the pool only. -/
structure Indexed
    (pool : Mempool) : Prop where
  spends :
    ∀ outpoint id, pool.spentBy outpoint = some id →
      ∃ links, pool.entries.lookup id = some links ∧
        links.entry.spends outpoint
  txids :
    ∀ txid id, pool.byTxid txid = some id →
      ∃ links, pool.entries.lookup id = some links ∧
        links.entry.txid = txid

namespace Indexed

variable {pool : Mempool} {id : Hash256}

/- A released outpoint is one the leaving entry spent. -/
theorem spentBy_unlink
    (hIndices : pool.Indexed)
    (outpoint : OutPoint)
    (spender : Hash256) :
    (pool.unlink id).spentBy outpoint = some spender ↔
      spender ≠ id ∧ pool.spentBy outpoint = some spender := by
  rw [spentBy_unlink_iff, and_comm]
  apply and_congr_left
  intro hSpent
  apply not_congr
  refine and_iff_left ?_
  rcases hIndices.spends outpoint spender hSpent with
    ⟨links, hFound, hSpends⟩
  exact ⟨links.entry, find_of_lookup hFound, hSpends⟩

theorem byTxid_unlink
    (hIndices : pool.Indexed)
    (txid other : Hash256) :
    (pool.unlink id).byTxid txid = some other ↔
      other ≠ id ∧ pool.byTxid txid = some other := by
  rw [byTxid_unlink_iff, and_comm]
  apply and_congr_left
  intro hIndexed
  apply not_congr
  refine and_iff_left ?_
  rcases hIndices.txids txid other hIndexed with
    ⟨links, hFound, hTxid⟩
  exact ⟨links.entry, find_of_lookup hFound, hTxid⟩

theorem spentBy_unlinkAll
    (hLinked : pool.Linked)
    (hIndices : pool.Indexed)
    (ids : List Hash256)
    (outpoint : OutPoint)
    (spender : Hash256) :
    (pool.unlinkAll ids).spentBy outpoint = some spender ↔
      spender ∉ ids ∧
        pool.spentBy outpoint = some spender := by
  rw [index_unlinkAll Mempool.spentBy Entry.spends
    spentBy_unlink_iff hLinked, and_comm]
  apply and_congr_left
  intro hSpent
  apply not_congr
  refine and_iff_left ?_
  rcases hIndices.spends outpoint spender hSpent with
    ⟨links, hFound, hSpends⟩
  exact ⟨links.entry, find_of_lookup hFound, hSpends⟩

theorem byTxid_unlinkAll
    (hLinked : pool.Linked)
    (hIndices : pool.Indexed)
    (ids : List Hash256)
    (txid other : Hash256) :
    (pool.unlinkAll ids).byTxid txid = some other ↔
      other ∉ ids ∧ pool.byTxid txid = some other := by
  rw [index_unlinkAll Mempool.byTxid
    (fun entry txid => entry.txid = txid)
    byTxid_unlink_iff hLinked, and_comm]
  apply and_congr_left
  intro hIndexed
  apply not_congr
  refine and_iff_left ?_
  rcases hIndices.txids txid other hIndexed with
    ⟨links, hFound, hTxid⟩
  exact ⟨links.entry, find_of_lookup hFound, hTxid⟩

end Indexed

namespace Sound

variable {c : Crypto} {pool : Mempool} {id : Hash256}

theorem indices
    (hSound : pool.Sound c) :
    pool.Indexed where
  spends := fun outpoint id hSpent =>
    (hSound.spends outpoint id).mp hSpent
  txids := hSound.indexed

theorem spentBy_unlink
    (hSound : pool.Sound c)
    (outpoint : OutPoint)
    (spender : Hash256) :
    (pool.unlink id).spentBy outpoint = some spender ↔
      spender ≠ id ∧ pool.spentBy outpoint = some spender :=
  hSound.indices.spentBy_unlink outpoint spender

theorem byTxid_unlink
    (hSound : pool.Sound c)
    (txid other : Hash256) :
    (pool.unlink id).byTxid txid = some other ↔
      other ≠ id ∧ pool.byTxid txid = some other :=
  hSound.indices.byTxid_unlink txid other

theorem weight_unlink
    (hSound : pool.Sound c) :
    ((pool.unlink id).totalWeight : Int) =
      (pool.unlink id).exactWeight := by
  cases hFound : pool.entries.lookup id with
  | none =>
      rw [unlink_of_absent hFound]
      exact hSound.weight
  | some doomed =>
      have hTotal :=
        total_unlink (fun entry => (entry.weight : Int)) hFound
      have hWeight := hSound.weight
      have hLeft :
          (pool.unlink id).totalWeight =
            pool.totalWeight - doomed.entry.weight := by
        unfold unlink
        rw [hFound]
      unfold exactWeight at hWeight ⊢
      have hRest :
          0 ≤ Table.total
            (fun links => (links.entry.weight : Int))
            (pool.unlink id).entries :=
        Table.total_nonneg fun _ _ _ => Int.natCast_nonneg _
      rw [hLeft]
      omega

theorem fees_unlink
    (hSound : pool.Sound c) :
    (pool.unlink id).totalFees =
      Int64.ofInt (pool.unlink id).exactFees := by
  cases hFound : pool.entries.lookup id with
  | none =>
      rw [unlink_of_absent hFound]
      exact hSound.fees
  | some doomed =>
      have hTotal :=
        total_unlink (fun entry => entry.fee.toInt) hFound
      have hLeft :
          (pool.unlink id).totalFees =
            pool.totalFees - doomed.entry.fee := by
        unfold unlink
        rw [hFound]
      have hExact :
          (pool.unlink id).exactFees =
            pool.exactFees - doomed.entry.fee.toInt := by
        unfold exactFees
        omega
      rw [hLeft, hExact, Int64.ofInt_sub, Int64.ofInt_toInt,
        hSound.fees]

theorem unlink
    (hSound : pool.Sound c)
    (id : Hash256) :
    (pool.unlink id).Sound c := by
  have hLookup :
      ∀ {other : Hash256} {links : EntryInternal},
        (pool.unlink id).entries.lookup other = some links ↔
          other ≠ id ∧
            ∃ old, pool.entries.lookup other = some old ∧
              dropAll [id] old = links :=
    hSound.linked.lookup_unlink_eq_some
  constructor
  · exact hSound.linked.unlink id
  · intro other links hFound
    rcases hLookup.mp hFound with ⟨-, old, hOld, rfl⟩
    exact hSound.admitted other old hOld
  · intro other links hFound parent hParent up hUp
    rcases hLookup.mp hFound with ⟨-, old, hOld, rfl⟩
    rcases hLookup.mp hUp with ⟨-, held, hHeld, rfl⟩
    exact hSound.named other old hOld parent
      (List.mem_of_mem_filter hParent) held hHeld
  · intro outpoint spender
    rw [hSound.spentBy_unlink, hSound.spends]
    constructor
    · rintro ⟨hNe, links, hFound, hSpends⟩
      exact ⟨_, hLookup.mpr ⟨hNe, links, hFound, rfl⟩,
        hSpends⟩
    · rintro ⟨links, hFound, hSpends⟩
      rcases hLookup.mp hFound with ⟨hNe, old, hOld, rfl⟩
      exact ⟨hNe, old, hOld, hSpends⟩
  · intro txid other hIndexed
    rcases (hSound.byTxid_unlink txid other).mp hIndexed with
      ⟨hNe, hBefore⟩
    rcases hSound.indexed txid other hBefore with
      ⟨links, hFound, hTxid⟩
    exact ⟨_, hLookup.mpr ⟨hNe, links, hFound, rfl⟩, hTxid⟩
  · exact hSound.weight_unlink
  · exact hSound.fees_unlink
  · rcases hSound.ranked with ⟨rank, hRank⟩
    exact ⟨rank, fun other parent hParent =>
      hRank other parent
        (linked_unlink_subset hSound.linked parents_dropAll
          hParent)⟩
  · intro other
    apply le_trans _ (hSound.ancestors other)
    exact encard_beyond_mono
      (fun _ _ => linked_unlink_subset hSound.linked
        parents_dropAll) other
  · intro other
    apply le_trans _ (hSound.descendants other)
    exact encard_beyond_mono
      (fun _ _ => linked_unlink_subset hSound.linked
        children_dropAll) other

theorem unlinkAll
    (hSound : pool.Sound c)
    (ids : List Hash256) :
    (pool.unlinkAll ids).Sound c := by
  induction ids generalizing pool with
  | nil => exact hSound
  | cons id ids ih => exact ih (hSound.unlink id)

theorem spentBy_unlinkAll
    (hSound : pool.Sound c)
    (ids : List Hash256)
    (outpoint : OutPoint)
    (spender : Hash256) :
    (pool.unlinkAll ids).spentBy outpoint = some spender ↔
      spender ∉ ids ∧
        pool.spentBy outpoint = some spender :=
  hSound.indices.spentBy_unlinkAll hSound.linked ids outpoint
    spender

theorem byTxid_unlinkAll
    (hSound : pool.Sound c)
    (ids : List Hash256)
    (txid other : Hash256) :
    (pool.unlinkAll ids).byTxid txid = some other ↔
      other ∉ ids ∧ pool.byTxid txid = some other :=
  hSound.indices.byTxid_unlinkAll hSound.linked ids txid other

end Sound

------------------------------------------------------------
-- Insertion
------------------------------------------------------------

/- The relatives that an arrival would have. -/
def Above
    (pool : Mempool)
    (parents : List Hash256)
    (other : Hash256) : Prop :=
  ∃ parent ∈ parents,
    pool.Reaches EntryInternal.parents parent other

/- A pool with room for an arrival below the given parents. -/
structure Fits
    (c : Crypto)
    (pool : Mempool)
    (entry : Entry)
    (parents : List Hash256) : Prop where
  admitted : entry.Admitted c entry.wtxid
  fresh : pool.entries.lookup entry.wtxid = none
  resolved :
    ∀ parent, parent ∈ parents ↔
      ∃ input ∈ entry.tx.inputs,
        pool.byTxid input.outpoint.txid = some parent
  unspent :
    ∀ outpoint, entry.spends outpoint →
      pool.spentBy outpoint = none
  above :
    {other | pool.Above parents other}.encard ≤
      maxMempoolAncestors
  below :
    ∀ other, pool.Above parents other →
      {next |
        pool.Beyond EntryInternal.children other
          next}.encard + 1 ≤ maxMempoolDescendants

theorem spentBy_insertEntry
    (pool : Mempool)
    (entry : Entry)
    (parents : List Hash256)
    (outpoint : OutPoint) :
    (pool.insertEntry entry parents).spentBy outpoint =
      if outpoint ∈ entry.tx.inputs.map TxInput.outpoint then
        some entry.wtxid
      else
        pool.spentBy outpoint := by
  change entry.tx.inputs.foldl
    (fun (spentBy : OutPoint → Option Hash256) input =>
      Function.update spentBy input.outpoint
        (some entry.wtxid)) pool.spentBy outpoint = _
  generalize pool.spentBy = spentBy
  induction entry.tx.inputs generalizing spentBy with
  | nil => rfl
  | cons input inputs ih =>
      rw [List.foldl_cons, ih]
      by_cases hRest :
          outpoint ∈ inputs.map TxInput.outpoint
      · rw [if_pos hRest, if_pos (by simp [hRest])]
      · rw [if_neg hRest]
        by_cases hSame : outpoint = input.outpoint
        · rw [hSame, Function.update_self,
            if_pos (by simp)]
        · rw [Function.update_of_ne hSame,
            if_neg (by simp [hSame, hRest])]

namespace Fits

variable {c : Crypto} {pool : Mempool}
variable {entry : Entry} {parents : List Hash256}

theorem parent_found
    (hSound : pool.Sound c)
    (hFits : pool.Fits c entry parents)
    {parent : Hash256}
    (hParent : parent ∈ parents) :
    ∃ links,
      pool.entries.lookup parent = some links ∧
        entry.names links.entry.txid := by
  rcases (hFits.resolved parent).mp hParent with
    ⟨input, hInput, hIndexed⟩
  rcases hSound.indexed _ _ hIndexed with
    ⟨links, hFound, hTxid⟩
  exact ⟨links, hFound, input, hInput, hTxid.symm⟩

theorem wtxid_notMem
    (hSound : pool.Sound c)
    (hFits : pool.Fits c entry parents) :
    entry.wtxid ∉ parents := by
  intro hParent
  rcases hFits.parent_found hSound hParent with
    ⟨links, hFound, -⟩
  rw [hFits.fresh] at hFound
  cases hFound

theorem lookup_insertEntry
    (hSound : pool.Sound c)
    (hFits : pool.Fits c entry parents)
    (other : Hash256) :
    (pool.insertEntry entry parents).entries.lookup other =
      if other = entry.wtxid then
        some
          { entry := entry
            children := []
            parents := parents }
      else if other ∈ parents then
        (pool.entries.lookup other).map
          (addChild entry.wtxid)
      else
        pool.entries.lookup other := by
  have hTwice :
      ∀ links,
        addChild entry.wtxid (addChild entry.wtxid links) =
          addChild entry.wtxid links := by
    intro links
    simp [addChild]
  change (Table.modifyAll (addChild entry.wtxid) parents
    (pool.entries.insert entry.wtxid _)).lookup other = _
  rw [Table.lookup_modifyAll hTwice]
  by_cases hSame : other = entry.wtxid
  · rw [if_pos hSame, hSame,
      if_neg (hFits.wtxid_notMem hSound), AList.lookup_insert]
  · rw [if_neg hSame, AList.lookup_insert_ne hSame]

theorem found_new
    (hSound : pool.Sound c)
    (hFits : pool.Fits c entry parents) :
    (pool.insertEntry entry parents).entries.lookup
        entry.wtxid =
      some
        { entry := entry
          children := []
          parents := parents } := by
  rw [hFits.lookup_insertEntry hSound, if_pos rfl]

/- An old entry keeps all but its children. -/
theorem found_before
    (hSound : pool.Sound c)
    (hFits : pool.Fits c entry parents)
    {id : Hash256}
    {links : EntryInternal}
    (hFound :
      (pool.insertEntry entry parents).entries.lookup id =
        some links)
    (hOld : id ≠ entry.wtxid) :
    ∃ old, pool.entries.lookup id = some old ∧
      links.entry = old.entry ∧
      links.parents = old.parents := by
  rw [hFits.lookup_insertEntry hSound, if_neg hOld] at hFound
  split at hFound
  · rcases Option.map_eq_some_iff.mp hFound with
      ⟨old, hThere, rfl⟩
    exact ⟨old, hThere, rfl, rfl⟩
  · exact ⟨links, hFound, rfl, rfl⟩

theorem found_after
    (hSound : pool.Sound c)
    (hFits : pool.Fits c entry parents)
    {id : Hash256}
    {old : EntryInternal}
    (hFound : pool.entries.lookup id = some old) :
    id ≠ entry.wtxid ∧
      ∃ links,
        (pool.insertEntry entry parents).entries.lookup id =
            some links ∧
          links.entry = old.entry := by
  have hOld : id ≠ entry.wtxid := by
    rintro rfl
    rw [hFits.fresh] at hFound
    cases hFound
  rw [hFits.lookup_insertEntry hSound, if_neg hOld, hFound]
  refine ⟨hOld, ?_⟩
  split
  · exact ⟨_, rfl, rfl⟩
  · exact ⟨_, rfl, rfl⟩

theorem mem_parents_insertEntry
    (hSound : pool.Sound c)
    (hFits : pool.Fits c entry parents)
    (id other : Hash256) :
    other ∈ (pool.insertEntry entry parents).linked
        EntryInternal.parents id ↔
      (id = entry.wtxid ∧ other ∈ parents) ∨
        other ∈ pool.linked EntryInternal.parents id := by
  rw [mem_linked, mem_linked, hFits.lookup_insertEntry hSound]
  by_cases hSame : id = entry.wtxid
  · subst hSame
    simp [hFits.fresh]
  · rw [if_neg hSame]
    split
    · cases pool.entries.lookup id with
      | none => simp [hSame]
      | some links => simp [hSame, addChild]
    · simp [hSame]

theorem mem_children_insertEntry
    (hSound : pool.Sound c)
    (hFits : pool.Fits c entry parents)
    (id other : Hash256) :
    other ∈ (pool.insertEntry entry parents).linked
        EntryInternal.children id ↔
      (id ∈ parents ∧ other = entry.wtxid) ∨
        other ∈ pool.linked EntryInternal.children id := by
  rw [mem_linked, mem_linked, hFits.lookup_insertEntry hSound]
  by_cases hSame : id = entry.wtxid
  · subst hSame
    simp [hFits.fresh, hFits.wtxid_notMem hSound]
  · rw [if_neg hSame]
    split
    · rename_i hParent
      rcases hFits.parent_found hSound hParent with
        ⟨links, hFound, -⟩
      simp [hFound, hParent, addChild]
    · rename_i hNot
      simp [hNot]

theorem linked_insertEntry
    (hSound : pool.Sound c)
    (hFits : pool.Fits c entry parents) :
    (pool.insertEntry entry parents).Linked := by
  have hParents := hFits.mem_parents_insertEntry hSound
  have hChildren := hFits.mem_children_insertEntry hSound
  constructor
  · intro id links hFound child hChild
    rw [hParents]
    rcases (hChildren id child).mp
      (mem_linked.mpr ⟨links, hFound, hChild⟩) with
      ⟨hParent, hNew⟩ | hOld
    · exact .inl ⟨hNew, hParent⟩
    · exact .inr
        ((hSound.linked.mem_linked_comm id child).mp hOld)
  · intro id links hFound parent hParent
    rw [hChildren]
    rcases (hParents id parent).mp
      (mem_linked.mpr ⟨links, hFound, hParent⟩) with
      ⟨hNew, hMember⟩ | hOld
    · exact .inl ⟨hMember, hNew⟩
    · exact .inr
        ((hSound.linked.mem_linked_comm parent id).mpr hOld)

/- From an old entry the links lead where they led before. -/
theorem beyond_old
    (hSound : pool.Sound c)
    (hFits : pool.Fits c entry parents)
    {id other : Hash256}
    (hOld : id ≠ entry.wtxid)
    (hBeyond :
      (pool.insertEntry entry parents).Beyond
        EntryInternal.parents id other) :
    other ≠ entry.wtxid ∧
      pool.Beyond EntryInternal.parents id other := by
  have hStep :
      ∀ {id other : Hash256}, id ≠ entry.wtxid →
        other ∈ (pool.insertEntry entry parents).linked
          EntryInternal.parents id →
        other ≠ entry.wtxid ∧
          other ∈ pool.linked EntryInternal.parents id := by
    intro id other hOld hLink
    rcases (hFits.mem_parents_insertEntry hSound id
      other).mp hLink with ⟨hNew, -⟩ | hBefore
    · exact absurd hNew hOld
    · refine ⟨?_, hBefore⟩
      rintro rfl
      rcases mem_linked.mp hBefore with
        ⟨links, hFound, hParent⟩
      exact (hSound.linked.not_linked hFits.fresh hFound).2
        hParent
  induction hBeyond with
  | single hLink =>
      rcases hStep hOld hLink with ⟨hNe, hBefore⟩
      exact ⟨hNe, .single hBefore⟩
  | tail _ hLink ih =>
      rcases hStep ih.1 hLink with ⟨hNe, hBefore⟩
      exact ⟨hNe, ih.2.tail hBefore⟩

theorem beyond_new
    (hSound : pool.Sound c)
    (hFits : pool.Fits c entry parents)
    {other : Hash256}
    (hBeyond :
      (pool.insertEntry entry parents).Beyond
        EntryInternal.parents entry.wtxid other) :
    pool.Above parents other := by
  rcases Relation.TransGen.head'_iff.mp hBeyond with
    ⟨parent, hLink, hRest⟩
  rcases (hFits.mem_parents_insertEntry hSound _ _).mp
    hLink with ⟨-, hParent⟩ | hBefore
  · refine ⟨parent, hParent, ?_⟩
    rcases Relation.reflTransGen_iff_eq_or_transGen.mp
      hRest with rfl | hMore
    · exact .refl
    · have hOld : parent ≠ entry.wtxid := by
        rintro rfl
        exact hFits.wtxid_notMem hSound hParent
      exact (hFits.beyond_old hSound hOld
        hMore).2.to_reflTransGen
  · rcases mem_linked.mp hBefore with ⟨links, hFound, -⟩
    rw [hFits.fresh] at hFound
    cases hFound

theorem ranked_insertEntry
    (hSound : pool.Sound c)
    (hFits : pool.Fits c entry parents) :
    ∃ rank : Hash256 → Nat,
      ∀ id,
        ∀ parent ∈ (pool.insertEntry entry parents).linked
            EntryInternal.parents id,
          rank parent < rank id := by
  rcases hSound.ranked with ⟨rank, hRank⟩
  refine ⟨Function.update rank entry.wtxid
    (parents.toFinset.sup rank + 1), ?_⟩
  intro id parent hLink
  rcases (hFits.mem_parents_insertEntry hSound _ _).mp
    hLink with ⟨rfl, hParent⟩ | hBefore
  · have hNe : parent ≠ entry.wtxid := by
      rintro rfl
      exact hFits.wtxid_notMem hSound hParent
    rw [Function.update_of_ne hNe, Function.update_self]
    exact Nat.lt_succ_of_le
      (Finset.le_sup (List.mem_toFinset.mpr hParent))
  · rcases mem_linked.mp hBefore with
      ⟨links, hFound, hParent⟩
    have hHere : id ≠ entry.wtxid := by
      rintro rfl
      rw [hFits.fresh] at hFound
      cases hFound
    have hThere : parent ≠ entry.wtxid := by
      rintro rfl
      exact (hSound.linked.not_linked hFits.fresh hFound).2
        hParent
    rw [Function.update_of_ne hHere,
      Function.update_of_ne hThere]
    exact hRank id parent hBefore

theorem ancestors_insertEntry
    (hSound : pool.Sound c)
    (hFits : pool.Fits c entry parents)
    (id : Hash256) :
    {other |
      (pool.insertEntry entry parents).Beyond
        EntryInternal.parents id other}.encard ≤
      maxMempoolAncestors := by
  by_cases hNew : id = entry.wtxid
  · subst hNew
    apply le_trans _ hFits.above
    exact Set.encard_le_encard fun other hOther =>
      hFits.beyond_new hSound hOther
  · apply le_trans _ (hSound.ancestors id)
    exact Set.encard_le_encard fun other hOther =>
      (hFits.beyond_old hSound hNew hOther).2

/- Only what the arrival depends on gains a descendant. -/
theorem descendants_insertEntry
    (hSound : pool.Sound c)
    (hFits : pool.Fits c entry parents)
    (id : Hash256) :
    {other |
      (pool.insertEntry entry parents).Beyond
        EntryInternal.children id other}.encard ≤
      maxMempoolDescendants := by
  have hLinked := hFits.linked_insertEntry hSound
  by_cases hAbove : pool.Above parents id
  · apply le_trans _ (hFits.below id hAbove)
    apply le_trans _
      (Set.encard_insert_le _ entry.wtxid)
    apply Set.encard_le_encard
    intro other hOther
    by_cases hNew : other = entry.wtxid
    · exact .inl hNew
    · refine .inr (hSound.linked.beyond_comm.mpr ?_)
      exact (hFits.beyond_old hSound hNew
        (hLinked.beyond_comm.mp hOther)).2
  · apply le_trans _ (hSound.descendants id)
    apply Set.encard_le_encard
    intro other hOther
    have hUp := hLinked.beyond_comm.mp hOther
    refine hSound.linked.beyond_comm.mpr ?_
    refine (hFits.beyond_old hSound ?_ hUp).2
    rintro rfl
    exact hAbove (hFits.beyond_new hSound hUp)

theorem totals_insertEntry
    (hFits : pool.Fits c entry parents)
    (amount : Entry → Int) :
    Table.total (fun links => amount links.entry)
        (pool.insertEntry entry parents).entries =
      amount entry +
        Table.total (fun links => amount links.entry)
          pool.entries := by
  change Table.total (fun links => amount links.entry)
    (Table.modifyAll (addChild entry.wtxid) parents
      (pool.entries.insert entry.wtxid _)) = _
  have hEntry :
      ∀ links,
        (addChild entry.wtxid links).entry = links.entry :=
    fun _ => rfl
  rw [total_modifyAll_entry amount hEntry]
  exact Table.total_insert hFits.fresh

end Fits

theorem Sound.insertEntry
    {c : Crypto}
    {pool : Mempool}
    {entry : Entry}
    {parents : List Hash256}
    (hSound : pool.Sound c)
    (hFits : pool.Fits c entry parents) :
    (pool.insertEntry entry parents).Sound c := by
  have hNew := hFits.found_new hSound
  constructor
  · exact hFits.linked_insertEntry hSound
  · intro id links hFound
    by_cases hHere : id = entry.wtxid
    · subst hHere
      rw [hNew, Option.some_inj] at hFound
      subst hFound
      exact hFits.admitted
    · rcases hFits.found_before hSound hFound hHere with
        ⟨old, hOld, hEntry, -⟩
      rw [hEntry]
      exact hSound.admitted id old hOld
  · intro id links hFound parent hParent other hOther
    by_cases hHere : id = entry.wtxid
    · subst hHere
      rw [hNew, Option.some_inj] at hFound
      subst hFound
      rcases hFits.parent_found hSound hParent with
        ⟨found, hParentFound, hNames⟩
      rcases hFits.found_after hSound hParentFound with
        ⟨-, held, hHeld, hEntry⟩
      rw [hOther, Option.some_inj] at hHeld
      rw [hHeld, hEntry]
      exact hNames
    · rcases hFits.found_before hSound hFound hHere with
        ⟨old, hOld, hSame, hParents⟩
      rw [hParents] at hParent
      have hThere : parent ≠ entry.wtxid := by
        rintro rfl
        exact (hSound.linked.not_linked hFits.fresh hOld).2
          hParent
      rcases hFits.found_before hSound hOther hThere with
        ⟨held, hHeld, hEntry, -⟩
      rw [hEntry, hSame]
      exact hSound.named id old hOld parent hParent held
        hHeld
  · intro outpoint id
    rw [spentBy_insertEntry]
    split
    · rename_i hSpends
      rw [Option.some_inj]
      constructor
      · rintro rfl
        exact ⟨_, hNew, hSpends⟩
      · rintro ⟨links, hFound, hAlso⟩
        by_contra hOther
        rcases hFits.found_before hSound hFound
          (Ne.symm hOther) with
          ⟨old, hOld, hEntry, -⟩
        rw [hEntry] at hAlso
        have hTaken :=
          (hSound.spends outpoint id).mpr ⟨old, hOld, hAlso⟩
        rw [hFits.unspent outpoint hSpends] at hTaken
        cases hTaken
    · rename_i hNot
      rw [hSound.spends]
      constructor
      · rintro ⟨old, hOld, hSpends⟩
        rcases hFits.found_after hSound hOld with
          ⟨-, links, hFound, hEntry⟩
        exact ⟨links, hFound, hEntry ▸ hSpends⟩
      · rintro ⟨links, hFound, hSpends⟩
        have hOther : id ≠ entry.wtxid := by
          rintro rfl
          rw [hNew, Option.some_inj] at hFound
          subst hFound
          exact hNot hSpends
        rcases hFits.found_before hSound hFound hOther with
          ⟨old, hOld, hEntry, -⟩
        exact ⟨old, hOld, hEntry ▸ hSpends⟩
  · intro txid id hIndexed
    change Function.update pool.byTxid entry.txid
      (some entry.wtxid) txid = some id at hIndexed
    by_cases hHere : txid = entry.txid
    · subst hHere
      rw [Function.update_self, Option.some_inj] at hIndexed
      subst hIndexed
      exact ⟨_, hNew, rfl⟩
    · rw [Function.update_of_ne hHere] at hIndexed
      rcases hSound.indexed txid id hIndexed with
        ⟨old, hOld, hTxid⟩
      rcases hFits.found_after hSound hOld with
          ⟨-, links, hFound, hEntry⟩
      exact ⟨links, hFound, by rw [hEntry, hTxid]⟩
  · have hTotal :=
      hFits.totals_insertEntry fun entry =>
        (entry.weight : Int)
    have hWeight := hSound.weight
    unfold exactWeight at hWeight ⊢
    rw [hTotal, ← hWeight]
    change ((pool.totalWeight + entry.weight : Nat) : Int) = _
    omega
  · have hTotal :=
      hFits.totals_insertEntry fun entry => entry.fee.toInt
    have hFees := hSound.fees
    unfold exactFees at hFees ⊢
    rw [hTotal, Int64.ofInt_add, Int64.ofInt_toInt, ← hFees]
    exact Int64.add_comm _ _
  · exact hFits.ranked_insertEntry hSound
  · exact hFits.ancestors_insertEntry hSound
  · exact hFits.descendants_insertEntry hSound

end Mempool

end Amarian
