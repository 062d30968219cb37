import Amarian.Lib.Packing
import Amarian.Mempool.Rates
import Amarian.Mempool.Shape

/-
  What a miner takes, whatever order the pool is walked in.

  The candidates take their turns in an order that only the
  pool decides, and the set of entries taken is what packing
  them greedily gives: the loop that emits a package never
  stops before the package is empty, because no entry depends
  on itself.

  Key definitions include:
    * `Mempool.getTemplatesBy`
    * `Mempool.SoundSelection`

  Key theorems include:
    * `Mempool.rankedBy_eq`
    * `Mempool.included_eq_pack`
    * `Mempool.getTemplates_sound`
-/

------------------------------------------------------------
-- Selection In Any Order
------------------------------------------------------------

namespace Amarian

namespace Mempool

section Selecting

variable {pool : Mempool}

/- The totals summed in any order. -/
def candidateBy
    (orders : pool.Orders)
    (id : Hash256) : Candidate :=
  let totals := pool.totalsOf (orders.summed id)
  { id := id, fee := totals.1, weight := totals.2 }

/- The ranks from any order of the keys. -/
def rankedBy
    (orders : pool.Orders) : List Candidate :=
  (orders.keys.map (candidateBy orders)).insertionSort
    fun first second => second.precedes first = false

/- The ancestors in any order. -/
def packageBy
    (orders : pool.Orders)
    (included : List Hash256)
    (id : Hash256) : List Hash256 :=
  (orders.gathered id).filter
    fun other =>
      decide (other ∉ included) && pool.contains other

/- One candidate, in these orders. -/
def considerBy
    (orders : pool.Orders)
    (availableWeight : Nat)
    (selection : Selection)
    (candidate : Candidate) : Selection :=
  if candidate.id ∈ selection.included then
    selection
  else
    let package :=
      packageBy orders selection.included candidate.id
    if selection.used + pool.packageWeight package >
        availableWeight then
      selection
    else
      pool.emit package.length package selection

/- Every candidate in turn, in these orders. -/
def selectionBy
    (orders : pool.Orders)
    (availableWeight : Nat) : Selection :=
  (rankedBy orders).foldl
    (considerBy orders availableWeight) .empty

/- The transactions for a block, in these orders. -/
def getTemplatesBy
    (orders : pool.Orders)
    (availableWeight : Nat) : List Entry :=
  (selectionBy orders availableWeight).selected

theorem getTemplatesBy_listed
    (pool : Mempool)
    (availableWeight : Nat) :
    getTemplatesBy (.listed pool) availableWeight =
      pool.getTemplates availableWeight :=
  rfl

------------------------------------------------------------
-- Weights
------------------------------------------------------------

/- The weight of an entry, zero if it is not there. -/
def weightIn
    (pool : Mempool)
    (id : Hash256) : Nat :=
  ((pool.find id).map Entry.weight).getD 0

theorem weightAt_eq
    (pool : Mempool)
    (id : Hash256) :
    pool.weightAt id = (pool.weightIn id : Int) := by
  unfold weightAt amountAt weightIn
  cases pool.find id with
  | none => rfl
  | some entry => rfl

theorem sum_weightAt
    (pool : Mempool)
    (ids : List Hash256) :
    (ids.map pool.weightAt).sum =
      ((ids.map pool.weightIn).sum : Nat) := by
  induction ids with
  | nil => rfl
  | cons id ids ih =>
      rw [List.map_cons, List.map_cons, List.sum_cons,
        List.sum_cons, ih, weightAt_eq]
      push_cast
      rfl

/- Some entries weigh no more than all of them. -/
theorem sum_weightIn_le
    (hLinked : pool.Linked)
    {ids : List Hash256}
    (hNodup : ids.Nodup) :
    ((ids.map pool.weightIn).sum : Int) ≤ pool.exactWeight := by
  have hTotal := total_unlinkAll
    (fun entry => (entry.weight : Int)) hLinked hNodup
  have hRest :
      0 ≤ (pool.unlinkAll ids).exactWeight :=
    Table.total_nonneg fun _ _ _ => Int.natCast_nonneg _
  have hSum := sum_weightAt pool ids
  unfold exactWeight at hRest ⊢
  unfold weightAt at hSum
  omega

theorem totalsOf_weight
    (pool : Mempool)
    (ids : List Hash256) :
    (pool.totalsOf ids).2 = (ids.map pool.weightIn).sum := by
  induction ids using List.reverseRecOn with
  | nil => rfl
  | append_singleton ids id ih =>
      unfold totalsOf at ih ⊢
      rw [List.foldl_append, List.foldl_cons, List.foldl_nil,
        List.map_append, List.sum_append, List.map_singleton,
        List.sum_singleton, ← ih]
      unfold weightIn
      cases pool.find id with
      | none => rfl
      | some entry => rfl

theorem packageWeight_eq
    (pool : Mempool)
    (ids : List Hash256) :
    pool.packageWeight ids = (ids.map pool.weightIn).sum := by
  unfold packageWeight
  induction ids with
  | nil => rfl
  | cons id ids ih =>
      rw [List.map_cons, List.sum_cons, ← ih]
      unfold weightIn
      cases hFound : pool.find id with
      | none =>
          rw [List.filterMap_cons_none hFound]
          exact (Nat.zero_add _).symm
      | some entry =>
          rw [List.filterMap_cons_some hFound]
          rfl

theorem packageWeight_load
    (pool : Mempool)
    {ids : List Hash256}
    (hNodup : ids.Nodup) :
    pool.packageWeight ids =
      Packing.load pool.weightIn ids.toFinset := by
  rw [packageWeight_eq]
  exact (List.sum_toFinset pool.weightIn hNodup).symm

/- The room that is used is what the entries weigh. -/
theorem Picked.used_load
    {selection : Selection}
    (hPicked : pool.Picked selection) :
    selection.used =
      Packing.load pool.weightIn
        selection.included.toFinset := by
  have hWeights :
      selection.included.map pool.weightIn =
        selection.selected.map Entry.weight := by
    have hFound := congrArg
      (List.map fun found : Option Entry =>
        (found.map Entry.weight).getD 0) hPicked.found
    rw [List.map_map, List.map_map] at hFound
    exact hFound
  rw [hPicked.used, ← hWeights]
  exact (List.sum_toFinset pool.weightIn
    hPicked.distinct).symm

------------------------------------------------------------
-- Turns
------------------------------------------------------------

theorem candidateBy_eq
    (orders : pool.Orders)
    (id : Hash256) :
    candidateBy orders id = pool.candidate id := by
  unfold candidateBy candidate descendantTotals
  rw [totalsOf_perm pool (orders.summed_perm id)]

theorem candidate_weight_lt
    (hLinked : pool.Linked)
    (hWeights : pool.exactWeight < 2 ^ 64)
    (id : Hash256) :
    (pool.candidate id).weight < 2 ^ 64 := by
  have hSum := sum_weightIn_le hLinked
    (nodup_reached EntryInternal.children pool id)
  change (pool.totalsOf (pool.descendantsOf id)).2 < 2 ^ 64
  rw [totalsOf_weight]
  unfold descendantsOf
  omega

theorem candidate_injective
    (pool : Mempool)
    {first second : Hash256}
    (hSame : (pool.candidate first).turn =
      (pool.candidate second).turn) :
    first = second :=
  magnitude_injective (Prod.mk.inj (toLex.injective hSame)).2

/- Among the candidates the comparison is that of the turns. -/
theorem rankedBy_sorted
    (hLinked : pool.Linked)
    (hWeights : pool.exactWeight < 2 ^ 64)
    (orders : pool.Orders) :
    rankedBy orders =
      (orders.keys.map pool.candidate).insertionSort
        fun first second => first.turn ≤ second.turn := by
  have hCandidates :
      orders.keys.map (candidateBy orders) =
        orders.keys.map pool.candidate :=
    List.map_congr_left fun id _ => candidateBy_eq orders id
  have hSame := List.map_insertionSort
    (fun first second : Candidate =>
      second.precedes first = false)
    (fun first second : Candidate =>
      first.turn ≤ second.turn)
    id (orders.keys.map pool.candidate) (by
      intro first hFirst second hSecond
      rcases List.mem_map.mp hFirst with ⟨one, -, rfl⟩
      rcases List.mem_map.mp hSecond with ⟨two, -, rfl⟩
      have hBefore := precedes_iff
        (candidate_weight_lt hLinked hWeights two)
        (candidate_weight_lt hLinked hWeights one)
      rw [← not_lt, ← Bool.not_eq_true]
      exact not_congr hBefore)
  rw [List.map_id, List.map_id] at hSame
  unfold rankedBy
  rw [hCandidates]
  exact hSame

theorem pairwise_rankedBy
    (hLinked : pool.Linked)
    (hWeights : pool.exactWeight < 2 ^ 64)
    (orders : pool.Orders) :
    (rankedBy orders).Pairwise
      fun first second => first.turn ≤ second.turn := by
  rw [rankedBy_sorted hLinked hWeights]
  have hTotal : Std.Total
      fun first second : Candidate =>
        first.turn ≤ second.turn :=
    ⟨fun first second => le_total first.turn second.turn⟩
  have hTrans : IsTrans Candidate
      fun first second => first.turn ≤ second.turn :=
    ⟨fun _ _ _ hLow hHigh => hLow.trans hHigh⟩
  exact List.pairwise_insertionSort _ _

theorem perm_rankedBy
    (orders : pool.Orders) :
    (rankedBy orders).Perm
      (pool.wtxids.map pool.candidate) := by
  have hCandidates :
      orders.keys.map (candidateBy orders) =
        orders.keys.map pool.candidate :=
    List.map_congr_left fun id _ => candidateBy_eq orders id
  have hSorted := List.perm_insertionSort
    (fun first second : Candidate =>
      second.precedes first = false)
    (orders.keys.map (candidateBy orders))
  rw [hCandidates] at hSorted
  unfold rankedBy
  rw [hCandidates]
  exact hSorted.trans (orders.keys_perm.map pool.candidate)

/- The pool alone decides who takes which turn. -/
theorem rankedBy_eq
    (hLinked : pool.Linked)
    (hWeights : pool.exactWeight < 2 ^ 64)
    (orders others : pool.Orders) :
    rankedBy orders = rankedBy others := by
  have hPerm : (rankedBy orders).Perm (rankedBy others) :=
    (perm_rankedBy orders).trans (perm_rankedBy others).symm
  refine List.Perm.eq_of_pairwise ?_
    (pairwise_rankedBy hLinked hWeights orders)
    (pairwise_rankedBy hLinked hWeights others) hPerm
  intro first second hFirst hSecond hLow hHigh
  rcases List.mem_map.mp
      ((perm_rankedBy orders).mem_iff.mp hFirst) with
    ⟨one, -, rfl⟩
  rcases List.mem_map.mp
      ((perm_rankedBy others).mem_iff.mp hSecond) with
    ⟨two, -, rfl⟩
  rw [candidate_injective pool (le_antisymm hLow hHigh)]

------------------------------------------------------------
-- Emission
------------------------------------------------------------

/- What a package lacks is in the package. -/
structure Closed
    (pool : Mempool)
    (included package : List Hash256) : Prop where
  distinct : package.Nodup
  inside : ∀ id ∈ package, pool.contains id = true
  parents :
    ∀ id ∈ package,
      ∀ parent ∈ pool.linked EntryInternal.parents id,
        parent ∈ included ∨ parent ∈ package

/- Some entry of a package is ready. -/
theorem Closed.exists_ready
    (hAcyclic : pool.Acyclic)
    {included package : List Hash256}
    (hClosed : pool.Closed included package)
    (hSome : package ≠ []) :
    ∃ id ∈ package, pool.isReady included id = true := by
  rcases Packing.exists_first hAcyclic hSome with
    ⟨id, hId, hFirst⟩
  refine ⟨id, hId, ?_⟩
  rcases contains_iff.mp (hClosed.inside id hId) with
    ⟨links, hFound⟩
  unfold isReady
  rw [hFound, List.all_eq_true]
  intro parent hParent
  have hLink : parent ∈ pool.linked EntryInternal.parents id :=
    mem_linked.mpr ⟨links, hFound, hParent⟩
  rcases hClosed.parents id hId parent hLink with
    hIn | hBeside
  · exact decide_eq_true hIn
  · exact absurd hLink (hFirst parent hBeside)

/- The loop takes in all of the package. -/
theorem mem_included_emit
    (hAcyclic : pool.Acyclic)
    {rounds : Nat}
    {package : List Hash256}
    {selection : Selection}
    (hClosed : pool.Closed selection.included package)
    (hRounds : package.length = rounds)
    (id : Hash256) :
    id ∈ (pool.emit rounds package selection).included ↔
      id ∈ selection.included ∨ id ∈ package := by
  induction rounds generalizing package selection with
  | zero =>
      rw [List.length_eq_zero_iff.mp hRounds]
      simp [emit]
  | succ rounds ih =>
      have hSome : package ≠ [] := by
        rintro rfl
        cases hRounds
      rcases hClosed.exists_ready hAcyclic hSome with
        ⟨ready, hReady, hTest⟩
      have hFind :
          (package.find?
            (pool.isReady selection.included)).isSome :=
        List.find?_isSome.mpr ⟨ready, hReady, hTest⟩
      rcases Option.isSome_iff_exists.mp hFind with
        ⟨next, hNext⟩
      have hMember := List.mem_of_find?_eq_some hNext
      rcases contains_iff.mp (hClosed.inside next hMember) with
        ⟨links, hFound⟩
      have hEntry : pool.find next = some links.entry := by
        rw [find, hFound]
        rfl
      have hMem : ∀ other,
          other ∈ package.erase next ↔
            other ≠ next ∧ other ∈ package :=
        fun _ => hClosed.distinct.mem_erase_iff
      have hRest :
          pool.Closed
            (selection.take next links.entry).included
            (package.erase next) := by
        refine ⟨hClosed.distinct.erase next, ?_, ?_⟩
        · intro other hOther
          exact hClosed.inside other ((hMem other).mp hOther).2
        · intro other hOther parent hParent
          rcases hClosed.parents other
              ((hMem other).mp hOther).2 parent hParent with
            hIn | hBeside
          · exact .inl (List.mem_append_left _ hIn)
          · by_cases hSame : parent = next
            · refine .inl (List.mem_append_right _ ?_)
              exact List.mem_singleton.mpr hSame
            · exact .inr ((hMem parent).mpr ⟨hSame, hBeside⟩)
      have hLength : (package.erase next).length = rounds := by
        rw [List.length_erase_of_mem hMember, hRounds]
        rfl
      unfold emit
      rw [hNext]
      dsimp only
      rw [hEntry]
      dsimp only
      rw [ih hRest hLength, hMem]
      change (id ∈ selection.included ++ [next] ∨ _) ↔ _
      rw [List.mem_append, List.mem_singleton]
      by_cases hSame : id = next
      · simp [hSame, hMember]
      · simp [hSame]

------------------------------------------------------------
-- Packing The Entries
------------------------------------------------------------

/- An entry needs itself and its ancestors. -/
def needs
    (pool : Mempool)
    (id : Hash256) : Finset Hash256 :=
  (pool.ancestorsOf id).toFinset

theorem contains_ancestor
    (hLinked : pool.Linked)
    {id other : Hash256}
    (hMember : other ∈ pool.ancestorsOf id) :
    pool.contains other = true := by
  rcases mem_reached.mp hMember with ⟨hStart, hReaches⟩
  rcases Relation.ReflTransGen.cases_tail hReaches with
    rfl | ⟨last, -, hLast⟩
  · exact hStart
  · exact hLinked.contains_linked (.inr hLast)

theorem mem_packageBy
    (hLinked : pool.Linked)
    (orders : pool.Orders)
    (included : List Hash256)
    (id other : Hash256) :
    other ∈ packageBy orders included id ↔
      other ∈ pool.ancestorsOf id ∧ other ∉ included := by
  unfold packageBy
  rw [List.mem_filter, (orders.gathered_perm id).mem_iff,
    Bool.and_eq_true, decide_eq_true_eq]
  constructor
  · rintro ⟨hAncestor, hFresh, -⟩
    exact ⟨hAncestor, hFresh⟩
  · rintro ⟨hAncestor, hFresh⟩
    exact ⟨hAncestor, hFresh,
      contains_ancestor hLinked hAncestor⟩

theorem nodup_packageBy
    (orders : pool.Orders)
    (included : List Hash256)
    (id : Hash256) :
    (packageBy orders included id).Nodup := by
  have hGathered : (orders.gathered id).Nodup :=
    (orders.gathered_perm id).nodup_iff.mpr
      (nodup_reached _ pool id)
  exact hGathered.filter _

theorem closed_packageBy
    (hLinked : pool.Linked)
    (orders : pool.Orders)
    (included : List Hash256)
    (id : Hash256) :
    pool.Closed included (packageBy orders included id) := by
  have hMem := mem_packageBy hLinked orders included id
  refine ⟨nodup_packageBy orders included id, ?_, ?_⟩
  · intro other hOther
    exact contains_ancestor hLinked ((hMem other).mp hOther).1
  · intro other hOther parent hParent
    rcases mem_reached.mp ((hMem other).mp hOther).1 with
      ⟨hStart, hReaches⟩
    have hAncestor : parent ∈ pool.ancestorsOf id :=
      mem_reached.mpr ⟨hStart, hReaches.tail hParent⟩
    by_cases hIn : parent ∈ included
    · exact .inl hIn
    · exact .inr ((hMem parent).mpr ⟨hAncestor, hIn⟩)

theorem toFinset_packageBy
    (hLinked : pool.Linked)
    (orders : pool.Orders)
    (included : List Hash256)
    (id : Hash256) :
    (packageBy orders included id).toFinset =
      pool.needs id \ included.toFinset := by
  ext other
  unfold needs
  rw [List.mem_toFinset, Finset.mem_sdiff, List.mem_toFinset,
    List.mem_toFinset, mem_packageBy hLinked]

/- A turn of the loop is a turn of the packing. -/
theorem considerBy_spec
    (hLinked : pool.Linked)
    (hAcyclic : pool.Acyclic)
    (orders : pool.Orders)
    (available : Nat)
    {selection : Selection}
    (hPicked : pool.Picked selection)
    (candidate : Candidate) :
    pool.Picked (considerBy orders available selection
        candidate) ∧
      (considerBy orders available selection
          candidate).included.toFinset =
        Packing.offer pool.needs pool.weightIn available
          selection.included.toFinset candidate.id := by
  have hNodup :=
    nodup_packageBy orders selection.included candidate.id
  have hPackage := toFinset_packageBy hLinked orders
    selection.included candidate.id
  have hWeight :
      selection.used +
          pool.packageWeight
            (packageBy orders selection.included candidate.id) =
        Packing.load pool.weightIn
            selection.included.toFinset +
          Packing.load pool.weightIn
            (pool.needs candidate.id \
              selection.included.toFinset) := by
    rw [hPicked.used_load, packageWeight_load pool hNodup,
      hPackage]
  unfold considerBy Packing.offer
  by_cases hIn : candidate.id ∈ selection.included
  · rw [if_pos hIn, if_pos (List.mem_toFinset.mpr hIn)]
    exact ⟨hPicked, rfl⟩
  rw [if_neg hIn,
    if_neg (fun hMem => hIn (List.mem_toFinset.mp hMem))]
  dsimp only
  by_cases hRoom :
      selection.used +
          pool.packageWeight
            (packageBy orders selection.included
              candidate.id) > available
  · rw [if_pos hRoom, if_neg (by omega)]
    exact ⟨hPicked, rfl⟩
  rw [if_neg hRoom, if_pos (by omega)]
  refine ⟨(hPicked.emit hNodup ?_
    (Nat.le_of_not_lt hRoom)).1, ?_⟩
  · intro id hId
    exact ((mem_packageBy hLinked orders selection.included
      candidate.id id).mp hId).2
  · rw [← Finset.union_sdiff_self_eq_union, ← hPackage]
    ext id
    rw [List.mem_toFinset, Finset.mem_union,
      List.mem_toFinset, List.mem_toFinset]
    exact mem_included_emit hAcyclic
      (closed_packageBy hLinked orders selection.included
        candidate.id) rfl id

/- The state before the turn of a candidate. -/
def selectionUpTo
    (orders : pool.Orders)
    (available : Nat)
    (turns : List Candidate) : Selection :=
  turns.foldl (considerBy orders available) .empty

theorem included_eq_pack
    (hLinked : pool.Linked)
    (hAcyclic : pool.Acyclic)
    (orders : pool.Orders)
    (available : Nat)
    (turns : List Candidate) :
    pool.Picked (selectionUpTo orders available turns) ∧
      (selectionUpTo orders available
          turns).included.toFinset =
        Packing.pack pool.needs pool.weightIn available
          (turns.map Candidate.id) := by
  induction turns using List.reverseRecOn with
  | nil => exact ⟨.empty pool, rfl⟩
  | append_singleton turns candidate ih =>
      have hStep := considerBy_spec hLinked hAcyclic orders
        available ih.1 candidate
      have hNext :
          selectionUpTo orders available
              (turns ++ [candidate]) =
            considerBy orders available
              (selectionUpTo orders available turns)
              candidate := by
        unfold selectionUpTo
        rw [List.foldl_append]
        rfl
      have hPack :
          Packing.pack pool.needs pool.weightIn available
              ((turns ++ [candidate]).map Candidate.id) =
            Packing.offer pool.needs pool.weightIn available
              (Packing.pack pool.needs pool.weightIn available
                (turns.map Candidate.id)) candidate.id := by
        unfold Packing.pack
        rw [List.map_append, List.foldl_append]
        rfl
      rw [hNext, hPack, ← ih.2]
      exact hStep

------------------------------------------------------------
-- Sound Selections
------------------------------------------------------------

/-
  What a selection promises: every entry once and behind all
  that it spends from, within the weight, the candidates in
  the order of their rates, and nobody left out who had room
  at its turn.
-/
structure SoundSelection
    (pool : Mempool)
    (available : Nat)
    (orders : pool.Orders) : Prop where
  found :
    (selectionBy orders available).included.map pool.find =
      (getTemplatesBy orders available).map some
  distinct : (selectionBy orders available).included.Nodup
  ordered :
    ∀ before id after,
      (selectionBy orders available).included =
          before ++ id :: after →
        ∀ links, pool.entries.lookup id = some links →
          ∀ parent entry,
            pool.entries.lookup parent = some entry →
              links.entry.names entry.entry.txid →
                parent ∈ before
  light :
    ((getTemplatesBy orders available).map Entry.weight).sum ≤
      available
  candidates :
    (rankedBy orders).Perm (pool.wtxids.map pool.candidate)
  turns :
    (rankedBy orders).Pairwise
      fun first second => first.turn < second.turn
  crowded :
    ∀ before id after,
      rankedBy orders =
          before ++ pool.candidate id :: after →
        id ∉ (selectionBy orders available).included →
          available <
            ∑ other ∈ (selectionUpTo orders available
                before).included.toFinset,
              pool.weightIn other +
            ∑ other ∈ (pool.ancestorsOf id).toFinset \
                (selectionUpTo orders available
                  before).included.toFinset,
              pool.weightIn other

theorem nodup_wtxids
    (pool : Mempool) :
    pool.wtxids.Nodup :=
  pool.entries.keys_nodup

theorem turns_rankedBy
    (hLinked : pool.Linked)
    (hWeights : pool.exactWeight < 2 ^ 64)
    (orders : pool.Orders) :
    (rankedBy orders).Pairwise
      fun first second => first.turn < second.turn := by
  have hDistinct :
      (rankedBy orders).Pairwise
        fun first second => first.turn ≠ second.turn := by
    have hTurns :
        ((pool.wtxids.map pool.candidate).map
          Candidate.turn).Nodup := by
      rw [List.map_map]
      exact (nodup_wtxids pool).map fun _ _ hSame =>
        candidate_injective pool hSame
    have hRanked :
        ((rankedBy orders).map Candidate.turn).Nodup :=
      ((perm_rankedBy orders).map
        Candidate.turn).nodup_iff.mpr hTurns
    exact List.pairwise_map.mp hRanked
  exact (pairwise_rankedBy hLinked hWeights
    orders).imp₂ (fun _ _ hLow hNe => lt_of_le_of_ne hLow hNe)
    hDistinct

theorem soundSelection
    (hLinks : pool.ExactLinks)
    (hAcyclic : pool.Acyclic)
    (hWeights : pool.exactWeight < 2 ^ 64)
    (available : Nat)
    (orders : pool.Orders) :
    pool.SoundSelection available orders := by
  have hLinked := hLinks.linked
  have hPacked := included_eq_pack hLinked hAcyclic orders
    available
  rcases hPacked (rankedBy orders) with ⟨hPicked, hAll⟩
  have hSelection :
      selectionUpTo orders available (rankedBy orders) =
        selectionBy orders available := rfl
  rw [hSelection] at hPicked hAll
  refine ⟨hPicked.found, hPicked.distinct, ?_, ?_,
    perm_rankedBy orders,
    turns_rankedBy hLinked hWeights orders, ?_⟩
  · intro before id after hSplit links hFound parent entry
      hParent hNames
    exact hPicked.ordered before id after hSplit parent
      ((hLinks.mem_parents hFound hParent).mpr hNames)
  · have hLoad : Packing.load pool.weightIn
        (selectionBy orders available).included.toFinset ≤
          available := by
      rw [hAll]
      exact Packing.load_pack_le _
    have hUsed := hPicked.used_load
    rw [hPicked.used] at hUsed
    change ((selectionBy orders available).selected.map
      Entry.weight).sum ≤ available
    omega
  · intro before id after hSplit hOut
    have hContains : pool.contains id = true := by
      have hMember : pool.candidate id ∈ rankedBy orders := by
        rw [hSplit]
        simp
      rcases List.mem_map.mp
          ((perm_rankedBy orders).mem_iff.mp hMember) with
        ⟨other, hOther, hSame⟩
      have hId : other = id := congrArg Candidate.id hSame
      exact mem_wtxids.mp (hId ▸ hOther)
    have hSelf : id ∈ pool.needs id :=
      List.mem_toFinset.mpr
        (mem_reached.mpr ⟨hContains, .refl⟩)
    have hNot :
        id ∉ Packing.pack pool.needs pool.weightIn available
          (before.map Candidate.id ++
            id :: after.map Candidate.id) := by
      intro hIn
      rw [hSplit, List.map_append, List.map_cons] at hAll
      apply hOut
      rw [← List.mem_toFinset, hAll]
      exact hIn
    have hCrowded := Packing.crowded_of_notMem hSelf hNot
    rw [← (hPacked before).2] at hCrowded
    exact hCrowded

/- Whatever the orders, the same entries are selected. -/
theorem included_same
    (hLinks : pool.ExactLinks)
    (hAcyclic : pool.Acyclic)
    (hWeights : pool.exactWeight < 2 ^ 64)
    (available : Nat)
    (orders others : pool.Orders)
    (id : Hash256) :
    id ∈ (selectionBy orders available).included ↔
      id ∈ (selectionBy others available).included := by
  have hLinked := hLinks.linked
  have hFirst := (included_eq_pack hLinked hAcyclic orders
    available (rankedBy orders)).2
  have hSecond := (included_eq_pack hLinked hAcyclic others
    available (rankedBy others)).2
  rw [rankedBy_eq hLinked hWeights orders others,
    ← hSecond] at hFirst
  rw [← List.mem_toFinset, ← List.mem_toFinset]
  have hSets :
      (selectionBy orders available).included.toFinset =
        (selectionBy others available).included.toFinset := by
    unfold selectionBy
    rw [rankedBy_eq hLinked hWeights orders others]
    exact hFirst
  rw [hSets]

end Selecting

/- Every selection is sound, and all select the same set. -/
theorem getTemplates_sound
    (pool : Mempool)
    (available : Nat)
    (hLinks : pool.ExactLinks)
    (hAcyclic : pool.Acyclic)
    (hWeights : pool.exactWeight < 2 ^ 64)
    (orders : pool.Orders) :
    pool.SoundSelection available orders ∧
      ∀ (others : pool.Orders) (id : Hash256),
        id ∈ (selectionBy orders available).included ↔
          id ∈ (selectionBy others available).included :=
  ⟨soundSelection hLinks hAcyclic hWeights available orders,
    included_same hLinks hAcyclic hWeights available orders⟩

end Mempool

namespace Sample

/- The parent and the child, both waiting. -/
def familyPool : Mempool :=
  Mempool.run Crypto.reference regtestParams
    (parentMined.take 2)

theorem familyPool_exact :
    familyPool.Exact Crypto.reference := by
  apply Mempool.exact_of_orderly Crypto.reference
    regtestParams parentMined _ parentMined_orderly
    (parentMined.take 2) (List.take_prefix 2 parentMined)
  apply parentBack_txids.mono
  rintro _ ⟨tx, ⟨call, hCall, hTx⟩, rfl⟩
  exact ⟨tx, ⟨call, List.mem_append_left _ hCall, hTx⟩, rfl⟩

theorem familyPool_weight :
    familyPool.exactWeight < 2 ^ 64 := by
  have hWeight := familyPool_exact.weight
  have hLight := familyPool_exact.light
  unfold maxMempoolWeight at hLight
  omega

/- Room for one of the two. -/
theorem getTemplates_sound_family :
    familyPool.SoundSelection 300 (.listed familyPool) ∧
      ∀ (others : familyPool.Orders) (id : Hash256),
        id ∈ (Mempool.selectionBy (.listed familyPool)
            300).included ↔
          id ∈ (Mempool.selectionBy others 300).included :=
  Mempool.getTemplates_sound familyPool 300
    familyPool_exact.exactLinks familyPool_exact.acyclic
    familyPool_weight (.listed familyPool)

end Sample

end Amarian
