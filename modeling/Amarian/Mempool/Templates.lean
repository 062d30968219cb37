import Amarian.Mempool.Links

/-
  What a miner takes from the pool.

  The entries are ranked by the fee rate of their descendant
  packages.  Each is taken together with the ancestors that
  are still missing, if they all fit, and every entry follows
  its parents.

  Key definitions include:
    * `Mempool.getTemplates`
    * `Mempool.Picked`

  Key theorems include:
    * `Mempool.picked_selection`
-/

------------------------------------------------------------
-- Ranking
------------------------------------------------------------

namespace Amarian

namespace Mempool

/- Better fee rates first, ties by hash. -/
def Candidate.precedes
    (first second : Candidate) : Bool :=
  match compareFeerate first.fee first.weight second.fee
      second.weight with
  | .gt => true
  | .lt => false
  | .eq => bytesLess first.id.bytes second.id.bytes

/- The candidates with the best rate first. -/
def ranked
    (pool : Mempool) : List Candidate :=
  (pool.wtxids.map pool.candidate).insertionSort
    fun first second => second.precedes first = false

------------------------------------------------------------
-- Selection
------------------------------------------------------------

/- What has been selected so far. -/
structure Selection where
  selected : List Entry
  included : List Hash256
  used : Nat

namespace Selection

/- Nothing is selected yet. -/
def empty : Selection :=
  { selected := []
    included := []
    used := 0 }

/- An entry more. -/
def take
    (selection : Selection)
    (id : Hash256)
    (entry : Entry) : Selection :=
  { selected := selection.selected ++ [entry]
    included := selection.included ++ [id]
    used := selection.used + entry.weight }

end Selection

/- The entry and its ancestors, without those included. -/
def packageOf
    (pool : Mempool)
    (included : List Hash256)
    (id : Hash256) : List Hash256 :=
  (pool.ancestorsOf id).filter
    fun other =>
      decide (other ∉ included) && pool.contains other

/- What the entries of a package weigh together. -/
def packageWeight
    (pool : Mempool)
    (package : List Hash256) : Nat :=
  ((package.filterMap pool.find).map Entry.weight).sum

/- Gone, or behind all of its parents. -/
def isReady
    (pool : Mempool)
    (included : List Hash256)
    (id : Hash256) : Bool :=
  match pool.entries.lookup id with
  | none => true
  | some links =>
      links.parents.all fun parent =>
        decide (parent ∈ included)

/-
  Every round takes the first entry that is ready out of the
  package, so one round each is enough.
-/
def emit
    (pool : Mempool) :
    Nat → List Hash256 → Selection → Selection
  | 0, _, selection => selection
  | rounds + 1, package, selection =>
      match
        package.find? (pool.isReady selection.included)
      with
      | none => selection
      | some id =>
          match pool.find id with
          | none =>
              pool.emit rounds (package.erase id) selection
          | some entry =>
              pool.emit rounds (package.erase id)
                (selection.take id entry)

/- A package is taken if it fits and is not there yet. -/
def consider
    (pool : Mempool)
    (availableWeight : Nat)
    (selection : Selection)
    (candidate : Candidate) : Selection :=
  if candidate.id ∈ selection.included then
    selection
  else
    let package :=
      pool.packageOf selection.included candidate.id
    if selection.used + pool.packageWeight package >
        availableWeight then
      selection
    else
      pool.emit package.length package selection

/- Every candidate in turn. -/
def selection
    (pool : Mempool)
    (availableWeight : Nat) : Selection :=
  pool.ranked.foldl (pool.consider availableWeight) .empty

/- The transactions for a block, parents first. -/
def getTemplates
    (pool : Mempool)
    (availableWeight : Nat) : List Entry :=
  (pool.selection availableWeight).selected

------------------------------------------------------------
-- What Is Picked
------------------------------------------------------------

/-
  The entries picked are those of the ids, all different and
  in order, and the room they take is counted.
-/
structure Picked
    (pool : Mempool)
    (selection : Selection) : Prop where
  found :
    selection.included.map pool.find =
      selection.selected.map some
  distinct : selection.included.Nodup
  ordered :
    Search.ParentsFirst (pool.linked EntryInternal.parents)
      selection.included
  used :
    selection.used =
      (selection.selected.map Entry.weight).sum

section Picking

variable {pool : Mempool} {selection : Selection}

theorem Picked.empty
    (pool : Mempool) :
    pool.Picked .empty where
  found := rfl
  distinct := List.nodup_nil
  ordered := .nil _
  used := rfl

theorem Picked.take
    (hPicked : pool.Picked selection)
    {id : Hash256}
    {entry : Entry}
    (hFound : pool.find id = some entry)
    (hFresh : id ∉ selection.included)
    (hReady : pool.isReady selection.included id = true) :
    pool.Picked (selection.take id entry) where
  found := by
    simp [Selection.take, hPicked.found, hFound]
  distinct := by
    apply List.Nodup.append hPicked.distinct
      (List.nodup_singleton id)
    exact List.disjoint_singleton.mpr hFresh
  ordered := by
    apply hPicked.ordered.concat
    intro parent hParent
    rcases mem_linked.mp hParent with ⟨links, hLinks, hIn⟩
    unfold isReady at hReady
    rw [hLinks, List.all_eq_true] at hReady
    exact of_decide_eq_true (hReady parent hIn)
  used := by
    simp [Selection.take, hPicked.used]

theorem packageWeight_erase
    {package : List Hash256}
    {id : Hash256}
    {entry : Entry}
    (hFound : pool.find id = some entry)
    (hMember : id ∈ package) :
    pool.packageWeight package =
      entry.weight + pool.packageWeight (package.erase id) := by
  unfold packageWeight
  have hPerm := (List.perm_cons_erase hMember).filterMap
    pool.find
  rw [List.filterMap_cons_some hFound] at hPerm
  rw [(hPerm.map Entry.weight).sum_eq, List.map_cons,
    List.sum_cons]

/- A package that fits is taken without passing the limit. -/
theorem Picked.emit
    {rounds available : Nat}
    {package : List Hash256}
    (hPicked : pool.Picked selection)
    (hDistinct : package.Nodup)
    (hFresh : ∀ id ∈ package, id ∉ selection.included)
    (hFits :
      selection.used + pool.packageWeight package ≤
        available) :
    pool.Picked (pool.emit rounds package selection) ∧
      (pool.emit rounds package selection).used ≤
        available := by
  induction rounds generalizing package selection with
  | zero => exact ⟨hPicked, by unfold Mempool.emit; omega⟩
  | succ rounds ih =>
      unfold Mempool.emit
      split
      · exact ⟨hPicked, by omega⟩
      rename_i id hNext
      have hReady := List.find?_some hNext
      have hMember := List.mem_of_find?_eq_some hNext
      have hRest : ∀ other ∈ package.erase id,
          other ≠ id ∧ other ∈ package := by
        intro other hOther
        exact hDistinct.mem_erase_iff.mp hOther
      split
      · rename_i hGone
        apply ih hPicked (hDistinct.erase id)
        · intro other hOther
          exact hFresh other (hRest other hOther).2
        · have hPerm := (List.perm_cons_erase
            hMember).filterMap pool.find
          rw [List.filterMap_cons_none hGone] at hPerm
          have hSame :=
            (hPerm.map Entry.weight).sum_eq
          unfold packageWeight at hFits ⊢
          omega
      · rename_i entry hFound
        apply ih (hPicked.take hFound (hFresh id hMember)
          hReady) (hDistinct.erase id)
        · intro other hOther hIn
          rcases hRest other hOther with ⟨hNe, hThere⟩
          rcases List.mem_append.mp hIn with hOld | hNew
          · exact hFresh other hThere hOld
          · exact hNe (List.mem_singleton.mp hNew)
        · rw [packageWeight_erase hFound hMember] at hFits
          change selection.used + entry.weight + _ ≤ _
          omega

theorem Picked.consider
    {available : Nat}
    (hPicked : pool.Picked selection)
    (hFits : selection.used ≤ available)
    (candidate : Candidate) :
    pool.Picked (pool.consider available selection
        candidate) ∧
      (pool.consider available selection candidate).used ≤
        available := by
  unfold Mempool.consider
  split
  · exact ⟨hPicked, hFits⟩
  dsimp only
  split
  · exact ⟨hPicked, hFits⟩
  rename_i hRoom
  apply hPicked.emit
  · exact (nodup_reached _ pool candidate.id).filter _
  · intro id hMember
    have hKept := (List.mem_filter.mp hMember).2
    rw [Bool.and_eq_true, decide_eq_true_eq] at hKept
    exact hKept.1
  · omega

end Picking

/-
  Whatever the pool, the selection has no entry twice, every
  entry follows its parents, and they fit into the weight.
-/
theorem picked_selection
    (pool : Mempool)
    (available : Nat) :
    pool.Picked (pool.selection available) ∧
      (pool.selection available).used ≤ available := by
  unfold selection
  have hAll :
      ∀ (candidates : List Candidate) (before : Selection),
        pool.Picked before ∧ before.used ≤ available →
          pool.Picked (candidates.foldl
              (pool.consider available) before) ∧
            (candidates.foldl (pool.consider available)
              before).used ≤ available := by
    intro candidates
    induction candidates with
    | nil => exact fun _ hBefore => hBefore
    | cons candidate candidates ih =>
        intro before hBefore
        apply ih
        exact hBefore.1.consider hBefore.2 candidate
  exact hAll _ _ ⟨.empty pool, Nat.zero_le _⟩

end Mempool

end Amarian
