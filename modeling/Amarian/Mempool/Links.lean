import Amarian.Mempool.Pool

/-
  The links of the pool, and what removal does to them.

  Key definitions include:
    * `Mempool.Linked`
    * `Mempool.unlinkAll`
    * `Mempool.exactFees`

  Key theorems include:
    * `Mempool.mem_reached`
    * `Mempool.Linked.lookup_unlink`
    * `Mempool.Linked.lookup_unlinkAll`
-/

------------------------------------------------------------
-- Following Links
------------------------------------------------------------

namespace Amarian

namespace Mempool

theorem contains_iff
    {pool : Mempool}
    {id : Hash256} :
    pool.contains id = true ↔
      ∃ links, pool.entries.lookup id = some links := by
  rw [contains, Option.isSome_iff_exists]

theorem mem_linked
    {side : EntryInternal → List Hash256}
    {pool : Mempool}
    {id other : Hash256} :
    other ∈ pool.linked side id ↔
      ∃ links,
        pool.entries.lookup id = some links ∧
          other ∈ side links := by
  unfold linked
  cases hFound : pool.entries.lookup id with
  | none => simp
  | some links => simp

/- Where the links of one side lead. -/
def Reaches
    (side : EntryInternal → List Hash256)
    (pool : Mempool) :
    Hash256 → Hash256 → Prop :=
  Relation.ReflTransGen
    fun id other => other ∈ pool.linked side id

theorem linked_subset
    (side : EntryInternal → List Hash256)
    (pool : Mempool)
    (start id : Hash256) :
    ∀ other ∈ pool.linked side id,
      other ∈
        start ::
          pool.entries.entries.flatMap
            fun entry => side entry.2 := by
  intro other hOther
  rcases mem_linked.mp hOther with ⟨links, hFound, hMember⟩
  apply List.mem_cons_of_mem
  exact List.mem_flatMap.mpr ⟨⟨id, links⟩,
    AList.mem_lookup_iff.mp hFound, hMember⟩

theorem mem_reached
    {side : EntryInternal → List Hash256}
    {pool : Mempool}
    {start id : Hash256} :
    id ∈ pool.reached side start ↔
      pool.contains start = true ∧
        pool.Reaches side start id := by
  unfold reached
  split
  · rename_i hContains
    rw [and_iff_right hContains]
    exact Search.mem_reach (linked_subset side pool start)
      (List.mem_cons_self ..) (Nat.le_refl _)
  · rename_i hAbsent
    simp [hAbsent]

theorem nodup_reached
    (side : EntryInternal → List Hash256)
    (pool : Mempool)
    (start : Hash256) :
    (pool.reached side start).Nodup := by
  unfold reached
  split
  · exact Search.nodup_reach (linked_subset side pool start)
      (List.mem_cons_self ..) (Nat.le_refl _)
  · exact List.nodup_nil

/- An entry with no link on a side reaches only itself. -/
theorem reached_eq_singleton
    {side : EntryInternal → List Hash256}
    {pool : Mempool}
    {start : Hash256}
    {links : EntryInternal}
    (hFound : pool.entries.lookup start = some links)
    (hNone : side links = []) :
    pool.reached side start = [start] := by
  rw [← List.perm_singleton,
    List.perm_ext_iff_of_nodup (nodup_reached side pool start)
      (List.nodup_singleton _)]
  intro other
  rw [List.mem_singleton]
  refine mem_reached.trans ⟨?_, ?_⟩
  · rintro ⟨-, hReaches⟩
    rcases Relation.ReflTransGen.cases_head hReaches with
      hSame | ⟨next, hNext, -⟩
    · exact hSame.symm
    · rcases mem_linked.mp hNext with ⟨own, hOwn, hLink⟩
      rw [hFound, Option.some_inj] at hOwn
      rw [← hOwn, hNone] at hLink
      cases hLink
  · rintro rfl
    exact ⟨contains_iff.mpr ⟨_, hFound⟩, .refl⟩

------------------------------------------------------------
-- Repaired Links
------------------------------------------------------------

/- Every link is recorded at both of its ends. -/
structure Linked
    (pool : Mempool) : Prop where
  down :
    ∀ id links, pool.entries.lookup id = some links →
      ∀ child ∈ links.children,
        id ∈ pool.linked EntryInternal.parents child
  up :
    ∀ id links, pool.entries.lookup id = some links →
      ∀ parent ∈ links.parents,
        id ∈ pool.linked EntryInternal.children parent

/- The links of an entry without those to the given ids. -/
def dropAll
    (ids : List Hash256)
    (links : EntryInternal) : EntryInternal :=
  { links with
    children := links.children.filter (· ∉ ids)
    parents := links.parents.filter (· ∉ ids) }

/- Takes entries out one after the other. -/
def unlinkAll
    (pool : Mempool)
    (ids : List Hash256) : Mempool :=
  ids.foldl unlink pool

theorem filter_ne_of_notMem
    {ids : List Hash256}
    {id : Hash256}
    (hAbsent : id ∉ ids) :
    ids.filter (· ≠ id) = ids := by
  rw [List.filter_eq_self]
  intro other hOther
  rw [decide_eq_true_eq]
  rintro rfl
  exact hAbsent hOther

theorem dropChild_of_notMem
    {id : Hash256}
    {links : EntryInternal}
    (hAbsent : id ∉ links.children) :
    dropChild id links = links := by
  rw [dropChild, filter_ne_of_notMem hAbsent]

theorem dropParent_of_notMem
    {id : Hash256}
    {links : EntryInternal}
    (hAbsent : id ∉ links.parents) :
    dropParent id links = links := by
  rw [dropParent, filter_ne_of_notMem hAbsent]

theorem dropAll_singleton
    (id : Hash256)
    (links : EntryInternal) :
    dropAll [id] links =
      dropParent id (dropChild id links) := by
  simp [dropAll, dropParent, dropChild]

theorem unlink_of_absent
    {pool : Mempool}
    {id : Hash256}
    (hAbsent : pool.entries.lookup id = none) :
    pool.unlink id = pool := by
  unfold unlink
  rw [hAbsent]

theorem lookup_unlink_of_found
    {pool : Mempool}
    {id other : Hash256}
    {doomed : EntryInternal}
    (hFound : pool.entries.lookup id = some doomed) :
    (pool.unlink id).entries.lookup other =
      if other = id then none
      else
        ((pool.entries.lookup other).map fun links =>
          if other ∈ doomed.parents then dropChild id links
          else links).map fun links =>
            if other ∈ doomed.children then
              dropParent id links
            else links := by
  have hChild :
      ∀ links,
        dropChild id (dropChild id links) =
          dropChild id links := by
    intro links
    simp [dropChild, List.filter_filter]
  have hParent :
      ∀ links,
        dropParent id (dropParent id links) =
          dropParent id links := by
    intro links
    simp [dropParent, List.filter_filter]
  unfold unlink
  rw [hFound]
  by_cases hSame : other = id
  · rw [if_pos hSame, hSame, AList.lookup_erase]
  · rw [if_neg hSame, AList.lookup_erase_ne hSame,
      Table.lookup_modifyAll hParent,
      Table.lookup_modifyAll hChild]
    cases pool.entries.lookup other with
    | none => simp
    | some links =>
        split_ifs <;> rfl

namespace Linked

variable {pool : Mempool} {id other : Hash256}

/- An absent entry is named by nothing. -/
theorem not_linked
    (hLinked : pool.Linked)
    (hAbsent : pool.entries.lookup id = none)
    {links : EntryInternal}
    (hFound : pool.entries.lookup other = some links) :
    id ∉ links.children ∧ id ∉ links.parents := by
  constructor
  · intro hChild
    rcases mem_linked.mp
      (hLinked.down other links hFound id hChild) with
      ⟨found, hThere, -⟩
    rw [hAbsent] at hThere
    cases hThere
  · intro hParent
    rcases mem_linked.mp
      (hLinked.up other links hFound id hParent) with
      ⟨found, hThere, -⟩
    rw [hAbsent] at hThere
    cases hThere

theorem lookup_unlink
    (hLinked : pool.Linked)
    (id other : Hash256) :
    (pool.unlink id).entries.lookup other =
      if other = id then none
      else
        (pool.entries.lookup other).map (dropAll [id]) := by
  cases hFound : pool.entries.lookup id with
  | none =>
      rw [unlink_of_absent hFound]
      by_cases hKey : other = id
      · rw [if_pos hKey, hKey, hFound]
      · rw [if_neg hKey]
        cases hOther : pool.entries.lookup other with
        | none => rfl
        | some links =>
            rcases hLinked.not_linked hFound hOther with
              ⟨hChild, hParent⟩
            rw [Option.map_some, dropAll_singleton,
              dropChild_of_notMem hChild,
              dropParent_of_notMem hParent]
  | some doomed =>
      rw [lookup_unlink_of_found hFound]
      by_cases hKey : other = id
      · rw [if_pos hKey, if_pos hKey]
      · rw [if_neg hKey, if_neg hKey]
        cases hOther : pool.entries.lookup other with
        | none => rfl
        | some links =>
            have hChild :
                (if other ∈ doomed.parents then
                  dropChild id links else links) =
                  dropChild id links := by
              split
              · rfl
              · rename_i hNot
                refine (dropChild_of_notMem ?_).symm
                intro hMember
                rcases mem_linked.mp
                  (hLinked.down other links hOther id
                    hMember) with ⟨found, hThere, hUp⟩
                rw [hFound, Option.some_inj] at hThere
                exact hNot (hThere ▸ hUp)
            have hParent :
                (if other ∈ doomed.children then
                  dropParent id (dropChild id links)
                  else dropChild id links) =
                  dropParent id (dropChild id links) := by
              split
              · rfl
              · rename_i hNot
                refine (dropParent_of_notMem ?_).symm
                intro hMember
                rcases mem_linked.mp
                  (hLinked.up other links hOther id
                    hMember) with ⟨found, hThere, hDown⟩
                rw [hFound, Option.some_inj] at hThere
                exact hNot (hThere ▸ hDown)
            rw [Option.map_some, Option.map_some,
              Option.map_some, hChild, hParent,
              dropAll_singleton]

theorem unlink
    (hLinked : pool.Linked)
    (id : Hash256) :
    (pool.unlink id).Linked := by
  have hLookup := hLinked.lookup_unlink id
  constructor
  · intro here links hHere child hChild
    rw [hLookup] at hHere
    split at hHere
    · cases hHere
    · rename_i hNe
      rcases Option.map_eq_some_iff.mp hHere with
        ⟨old, hOld, rfl⟩
      simp only [dropAll, List.mem_filter,
        List.mem_singleton, decide_eq_true_eq] at hChild
      rcases mem_linked.mp
        (hLinked.down here old hOld child hChild.1) with
        ⟨other, hOther, hUp⟩
      refine mem_linked.mpr ⟨dropAll [id] other, ?_, ?_⟩
      · rw [hLookup, if_neg hChild.2, hOther, Option.map_some]
      · simp only [dropAll, List.mem_filter,
          List.mem_singleton, decide_eq_true_eq]
        exact ⟨hUp, hNe⟩
  · intro here links hHere parent hParent
    rw [hLookup] at hHere
    split at hHere
    · cases hHere
    · rename_i hNe
      rcases Option.map_eq_some_iff.mp hHere with
        ⟨old, hOld, rfl⟩
      simp only [dropAll, List.mem_filter,
        List.mem_singleton, decide_eq_true_eq] at hParent
      rcases mem_linked.mp
        (hLinked.up here old hOld parent hParent.1) with
        ⟨other, hOther, hDown⟩
      refine mem_linked.mpr ⟨dropAll [id] other, ?_, ?_⟩
      · rw [hLookup, if_neg hParent.2, hOther,
          Option.map_some]
      · simp only [dropAll, List.mem_filter,
          List.mem_singleton, decide_eq_true_eq]
        exact ⟨hDown, hNe⟩

theorem unlinkAll
    (hLinked : pool.Linked)
    (ids : List Hash256) :
    (pool.unlinkAll ids).Linked := by
  induction ids generalizing pool with
  | nil => exact hLinked
  | cons id ids ih => exact ih (hLinked.unlink id)

theorem lookup_unlinkAll
    (hLinked : pool.Linked)
    (ids : List Hash256)
    (other : Hash256) :
    (pool.unlinkAll ids).entries.lookup other =
      if other ∈ ids then none
      else
        (pool.entries.lookup other).map (dropAll ids) := by
  induction ids generalizing pool with
  | nil =>
      have hNone : dropAll [] = id := by
        funext links
        simp [dropAll]
      simp [Mempool.unlinkAll, hNone]
  | cons id ids ih =>
      have hBoth :
          dropAll ids ∘ dropAll [id] = dropAll (id :: ids) := by
        funext links
        simp [dropAll, List.filter_filter, Bool.and_comm]
      rw [Mempool.unlinkAll, List.foldl_cons]
      change ((pool.unlink id).unlinkAll
        ids).entries.lookup other = _
      rw [ih (hLinked.unlink id), hLinked.lookup_unlink]
      by_cases hRest : other ∈ ids
      · rw [if_pos hRest,
          if_pos (List.mem_cons_of_mem _ hRest)]
      · rw [if_neg hRest]
        by_cases hHere : other = id
        · rw [if_pos hHere, hHere,
            if_pos (List.mem_cons_self ..)]
          rfl
        · rw [if_neg hHere, if_neg (by simp [hHere, hRest]),
            Option.map_map, hBoth]

/- What is left of one side of the links. -/
theorem mem_linked_unlinkAll
    (hLinked : pool.Linked)
    {side : EntryInternal → List Hash256}
    (hSide :
      ∀ ids links,
        side (dropAll ids links) =
          (side links).filter (· ∉ ids))
    (ids : List Hash256)
    (id other : Hash256) :
    other ∈ (pool.unlinkAll ids).linked side id ↔
      id ∉ ids ∧ other ∉ ids ∧
        other ∈ pool.linked side id := by
  rw [mem_linked, mem_linked, hLinked.lookup_unlinkAll]
  by_cases hGone : id ∈ ids
  · simp [hGone]
  · simp only [hGone, if_false, Option.map_eq_some_iff,
      not_false_eq_true, true_and]
    constructor
    · rintro ⟨_, ⟨links, hFound, rfl⟩, hMember⟩
      rw [hSide, List.mem_filter, decide_eq_true_eq]
        at hMember
      exact ⟨hMember.2, links, hFound, hMember.1⟩
    · rintro ⟨hLeft, links, hFound, hMember⟩
      refine ⟨_, ⟨links, hFound, rfl⟩, ?_⟩
      rw [hSide, List.mem_filter, decide_eq_true_eq]
      exact ⟨hMember, hLeft⟩

/- Links can be followed from either end. -/
theorem mem_linked_comm
    (hLinked : pool.Linked)
    (id other : Hash256) :
    other ∈ pool.linked EntryInternal.children id ↔
      id ∈ pool.linked EntryInternal.parents other := by
  constructor
  · intro hMember
    rcases mem_linked.mp hMember with
      ⟨links, hFound, hChild⟩
    exact hLinked.down id links hFound other hChild
  · intro hMember
    rcases mem_linked.mp hMember with
      ⟨links, hFound, hParent⟩
    exact hLinked.up other links hFound id hParent

/- What is linked is in the pool. -/
theorem contains_linked
    (hLinked : pool.Linked)
    (hMember :
      other ∈ pool.linked EntryInternal.children id ∨
        other ∈ pool.linked EntryInternal.parents id) :
    pool.contains other = true := by
  rcases hMember with hChild | hParent
  · rw [hLinked.mem_linked_comm] at hChild
    rcases mem_linked.mp hChild with ⟨links, hFound, -⟩
    exact contains_iff.mpr ⟨links, hFound⟩
  · rw [← hLinked.mem_linked_comm] at hParent
    rcases mem_linked.mp hParent with ⟨links, hFound, -⟩
    exact contains_iff.mpr ⟨links, hFound⟩

theorem contains_descendant
    (hLinked : pool.Linked)
    (hMember : other ∈ pool.descendantsOf id) :
    pool.contains other = true := by
  rcases mem_reached.mp hMember with ⟨hStart, hReaches⟩
  rcases Relation.ReflTransGen.cases_tail hReaches with
    rfl | ⟨last, -, hLast⟩
  · exact hStart
  · exact hLinked.contains_linked (.inl hLast)

end Linked

------------------------------------------------------------
-- Indices And Totals
------------------------------------------------------------

/- The weights summed without a bound. -/
def exactWeight
    (pool : Mempool) : Int :=
  Table.total (fun links => (links.entry.weight : Int))
    pool.entries

/- The sum of the fees, outside the machine's integers. -/
def exactFees
    (pool : Mempool) : Int :=
  Table.total (fun links => links.entry.fee.toInt)
    pool.entries

theorem releaseInputs_apply
    (wtxid : Hash256)
    (inputs : List TxInput)
    (spentBy : OutPoint → Option Hash256)
    (outpoint : OutPoint) :
    releaseInputs wtxid inputs spentBy outpoint =
      if outpoint ∈ inputs.map TxInput.outpoint ∧
          spentBy outpoint = some wtxid then
        none
      else
        spentBy outpoint := by
  induction inputs generalizing spentBy with
  | nil => simp [releaseInputs]
  | cons input inputs ih =>
      rw [releaseInputs, List.foldl_cons]
      change releaseInputs wtxid inputs _ outpoint = _
      rw [ih]
      by_cases hSame : outpoint = input.outpoint
      · subst hSame
        by_cases hOwn : spentBy input.outpoint = some wtxid
        · simp [hOwn]
        · simp [hOwn]
      · have hKept :
            (if spentBy input.outpoint = some wtxid then
                Function.update spentBy input.outpoint none
              else spentBy) outpoint =
              spentBy outpoint := by
          split
          · rw [Function.update_of_ne hSame]
          · rfl
        simp [hKept, hSame]

/- Repairing links does not touch the entries themselves. -/
theorem modifyAll_entry
    {change : EntryInternal → EntryInternal}
    (hEntry : ∀ links, (change links).entry = links.entry)
    (keys : List Hash256)
    (table : Table Hash256 EntryInternal)
    (id : Hash256) :
    ((Table.modifyAll change keys table).lookup id).map
        EntryInternal.entry =
      (table.lookup id).map EntryInternal.entry := by
  induction keys generalizing table with
  | nil => rfl
  | cons key keys ih =>
      rw [Table.modifyAll, List.foldl_cons]
      change ((Table.modifyAll change keys
        (Table.modify change table key)).lookup id).map _ = _
      rw [ih, Table.lookup_modify]
      split
      · rename_i hSame
        rw [hSame, Option.map_map]
        congr 1
        funext links
        exact hEntry links
      · rfl

theorem total_modifyAll_entry
    (amount : Entry → Int)
    {change : EntryInternal → EntryInternal}
    (hEntry : ∀ links, (change links).entry = links.entry)
    (keys : List Hash256)
    (table : Table Hash256 EntryInternal) :
    Table.total (fun links => amount links.entry)
        (Table.modifyAll change keys table) =
      Table.total (fun links => amount links.entry)
        table := by
  apply Table.total_modifyAll
  intro links
  exact congrArg amount (hEntry links)

/- What dropping an entry does to a sum over the entries. -/
theorem total_unlink
    {pool : Mempool}
    {id : Hash256}
    {doomed : EntryInternal}
    (amount : Entry → Int)
    (hFound : pool.entries.lookup id = some doomed) :
    Table.total (fun links => amount links.entry)
        pool.entries =
      amount doomed.entry +
        Table.total (fun links => amount links.entry)
          (pool.unlink id).entries := by
  have hChild :
      ∀ links,
        (dropChild id links).entry = links.entry :=
    fun _ => rfl
  have hParent :
      ∀ links,
        (dropParent id links).entry = links.entry :=
    fun _ => rfl
  have hRepaired :
      ((Table.modifyAll (dropParent id) doomed.children
        (Table.modifyAll (dropChild id) doomed.parents
          pool.entries)).lookup id).map
          EntryInternal.entry =
        some doomed.entry := by
    rw [modifyAll_entry hParent, modifyAll_entry hChild,
      hFound]
    rfl
  rcases Option.map_eq_some_iff.mp hRepaired with
    ⟨last, hLast, hEntry⟩
  have hErased :
      Table.total
          (fun links : EntryInternal => amount links.entry)
          _ =
        amount last.entry + Table.total _ _ :=
    Table.total_erase hLast
  rw [total_modifyAll_entry amount hParent,
    total_modifyAll_entry amount hChild, hEntry] at hErased
  unfold unlink
  rw [hFound]
  exact hErased

end Mempool

end Amarian
