import Amarian.Mempool.Turns
import Amarian.Utxo.Outcome

/-
  The sweep after a reorganisation.

  The entries are judged while others leave. A judgement is
  that of the pool before the sweep all the same: what has
  left took its descendants along, so the parents of an entry
  that is still there are there.

  Key definitions include:
    * `Mempool.removeForReorgBy`
    * `Mempool.Stands`
    * `Mempool.Swept`

  Key theorems include:
    * `Mempool.Prunes.resolveInputs`
    * `Mempool.removeForReorg_keeps`
-/

------------------------------------------------------------
-- Sweeping In Any Order
------------------------------------------------------------

namespace Amarian

namespace Mempool

/- Whether an entry passes the input rules at the height. -/
def judged
    (c : Crypto)
    (base : Utxo)
    (spendHeight : UInt32)
    (params : ChainParams)
    (pool : Mempool)
    (entry : Entry) : Bool :=
  match pool.resolveInputs entry.tx base spendHeight with
  | none => false
  | some spent =>
      (checkTransactionInputs c entry.tx spent spendHeight
        params).isOk

/- One pass over the pool, in any order. -/
def sweepBy
    (walk : ∀ pool : Mempool, pool.Orders)
    (c : Crypto)
    (base : Utxo)
    (spendHeight : UInt32)
    (params : ChainParams)
    (state : Nat × Mempool)
    (wtxid : Hash256) : Nat × Mempool :=
  match state.2.find wtxid with
  | none => state
  | some entry =>
      if judged c base spendHeight params state.2 entry then
        state
      else
        let gone := removeRecursiveBy (walk state.2) wtxid
        (state.1 + gone.1, gone.2)

/- Passes until one finds nothing, in any order. -/
def removeForReorgBy
    (walk : ∀ pool : Mempool, pool.Orders)
    (c : Crypto)
    (pool : Mempool)
    (base : Utxo)
    (spendHeight : UInt32)
    (params : ChainParams) : Nat × Mempool :=
  (walk pool).keys.foldl
    (sweepBy walk c base spendHeight params) (0, pool)

theorem removeForReorgBy_listed
    (c : Crypto)
    (pool : Mempool)
    (base : Utxo)
    (spendHeight : UInt32)
    (params : ChainParams) :
    removeForReorgBy Orders.listed c pool base spendHeight
        params =
      pool.removeForReorg c base spendHeight params :=
  rfl

/- The entry is in the pool and passes. -/
def Stands
    (c : Crypto)
    (base : Utxo)
    (spendHeight : UInt32)
    (params : ChainParams)
    (pool : Mempool)
    (id : Hash256) : Prop :=
  ∃ entry, pool.find id = some entry ∧
    judged c base spendHeight params pool entry = true

------------------------------------------------------------
-- Judgements
------------------------------------------------------------

section Judging

variable {pool : Mempool}

/- What is left resolves as it did in the whole pool. -/
theorem Prunes.resolveInputs
    {after : Mempool}
    (hPrunes : pool.Prunes after)
    (hLinks : pool.ExactLinks)
    (hIndices : pool.ExactIndices)
    {id : Hash256}
    {entry : Entry}
    (hFound : after.find id = some entry)
    (base : Utxo)
    (spendHeight : UInt32) :
    after.resolveInputs entry.tx base spendHeight =
      pool.resolveInputs entry.tx base spendHeight := by
  have hLinked := hLinks.linked
  rcases hPrunes with ⟨ids, rfl, hClosed⟩
  rcases Option.map_eq_some_iff.mp hFound with
    ⟨links, hLookup, rfl⟩
  rcases entry_unlinkAll hLinked hLookup with
    ⟨hKept, old, hOld, hEntry⟩
  unfold Mempool.resolveInputs
  apply mapM_congr
  intro input hInput
  -- the parent that an input names has not left
  have hParent :
      (pool.unlinkAll ids).findByTxid input.outpoint.txid =
        pool.findByTxid input.outpoint.txid := by
    unfold findByTxid
    cases hBefore : pool.byTxid input.outpoint.txid with
    | none =>
        cases hAfter :
            (pool.unlinkAll ids).byTxid
              input.outpoint.txid with
        | none => rfl
        | some parent =>
            have hBoth :=
              (hIndices.indexed.byTxid_unlinkAll hLinked ids _
                _).mp hAfter
            rw [hBefore] at hBoth
            cases hBoth.2
    | some parent =>
        rcases (hIndices.txids _ _).mp hBefore with
          ⟨found, hThere, hTxid⟩
        have hNames :
            old.entry.names found.entry.txid := by
          rw [hEntry] at hInput
          exact ⟨input, hInput, hTxid.symm⟩
        have hChild :
            id ∈ pool.linked EntryInternal.children parent :=
          mem_linked.mpr ⟨found, hThere,
            (hLinks.links parent found hThere id old
              hOld).1.mpr hNames⟩
        have hStays : parent ∉ ids := fun hGone =>
          hKept (hClosed parent hGone id hChild)
        have hAfter :=
          (hIndices.indexed.byTxid_unlinkAll hLinked ids
            _ _).mpr ⟨hStays, hBefore⟩
        rw [hAfter, Option.bind_some, Option.bind_some,
          find_unlinkAll hLinked, if_neg hStays]
  rw [hParent]

theorem Prunes.judged
    {after : Mempool}
    (hPrunes : pool.Prunes after)
    (hLinks : pool.ExactLinks)
    (hIndices : pool.ExactIndices)
    {id : Hash256}
    {entry : Entry}
    (hFound : after.find id = some entry)
    (c : Crypto)
    (base : Utxo)
    (spendHeight : UInt32)
    (params : ChainParams) :
    judged c base spendHeight params after entry =
      judged c base spendHeight params pool entry := by
  unfold Mempool.judged
  rw [hPrunes.resolveInputs hLinks hIndices hFound]

theorem Linked.reaches_comm
    (hLinked : pool.Linked)
    {id other : Hash256} :
    pool.Reaches EntryInternal.children id other ↔
      pool.Reaches EntryInternal.parents other id := by
  unfold Reaches
  rw [← Relation.reflTransGen_swap]
  simp only [hLinked.mem_linked_comm]

end Judging

------------------------------------------------------------
-- The Sweep
------------------------------------------------------------

/-
  The state after some candidates: who has gone was in the
  pool, with a fallen ancestor, and who fell has gone.
-/
structure Swept
    (falls : Hash256 → Prop)
    (pool : Mempool)
    (before : Nat)
    (done gone : List Hash256)
    (state : Nat × Mempool) : Prop where
  left : state.2 = pool.unlinkAll gone
  count : state.1 = before + gone.length
  distinct : gone.Nodup
  closed :
    ∀ id ∈ gone,
      ∀ child ∈ pool.linked EntryInternal.children id,
        child ∈ gone
  fallen :
    ∀ id ∈ gone, pool.contains id = true ∧
      ∃ ancestor,
        pool.Reaches EntryInternal.parents id ancestor ∧
          falls ancestor
  swept :
    ∀ id ∈ done, pool.contains id = true → falls id →
      id ∈ gone

section Sweeping

variable {falls : Hash256 → Prop} {pool : Mempool}
variable {before : Nat}
variable {done gone : List Hash256} {state : Nat × Mempool}

theorem Swept.start
    (falls : Hash256 → Prop)
    (pool : Mempool)
    (before : Nat) :
    Swept falls pool before [] [] (before, pool) where
  left := rfl
  count := rfl
  distinct := List.nodup_nil
  closed := fun _ hId => nomatch hId
  fallen := fun _ hId => nomatch hId
  swept := fun _ hId => nomatch hId

theorem Swept.prunes
    (hSwept : Swept falls pool before done gone state) :
    pool.Prunes state.2 :=
  ⟨gone, hSwept.left, hSwept.closed⟩

/- A candidate that has gone, or stands, changes nothing. -/
theorem Swept.pass
    (hSwept : Swept falls pool before done gone state)
    {id : Hash256}
    (hPass : id ∈ gone ∨ ¬(pool.contains id = true ∧ falls id)) :
    Swept falls pool before (done ++ [id]) gone state where
  left := hSwept.left
  count := hSwept.count
  distinct := hSwept.distinct
  closed := hSwept.closed
  fallen := hSwept.fallen
  swept := by
    intro other hOther hContains hFalls
    rcases List.mem_append.mp hOther with hBefore | hLast
    · exact hSwept.swept other hBefore hContains hFalls
    · rw [List.mem_singleton.mp hLast] at hContains hFalls ⊢
      rcases hPass with hGone | hStands
      · exact hGone
      · exact absurd ⟨hContains, hFalls⟩ hStands

/- A candidate that falls takes its descendants along. -/
theorem Swept.drop
    (hLinked : pool.Linked)
    (hSwept : Swept falls pool before done gone state)
    (orders : state.2.Orders)
    {id : Hash256}
    (hThere : state.2.contains id = true)
    (hFalls : falls id) :
    Swept falls pool before (done ++ [id])
      (gone ++ orders.dropped id)
      (state.1 + (removeRecursiveBy orders id).1,
        (removeRecursiveBy orders id).2) := by
  rcases hSwept with
    ⟨hLeft, hCount, hDistinct, hClosed, hFallen, hDone⟩
  rcases state with ⟨count, after⟩
  dsimp only at hLeft hCount hThere orders
  subst hLeft
  have hMem := fun other =>
    (orders.dropped_perm id).mem_iff (a := other)
  -- what the round drops is still there, below the candidate
  have hBelow :
      ∀ other ∈ orders.dropped id,
        other ∉ gone ∧ pool.contains other = true ∧
          pool.Reaches EntryInternal.children id other := by
    intro other hOther
    rw [hMem] at hOther
    have hStays :=
      (contains_unlinkAll hLinked gone other).mp
        ((hLinked.unlinkAll gone).contains_descendant hOther)
    refine ⟨hStays.2, hStays.1, ?_⟩
    exact Relation.ReflTransGen.mono
      (fun _ _ hLink =>
        ((hLinked.mem_linked_unlinkAll children_dropAll gone
          _ _).mp hLink).2.2) _ _ (mem_reached.mp hOther).2
  have hSelf : id ∈ orders.dropped id :=
    (hMem id).mpr (mem_reached.mpr ⟨hThere, .refl⟩)
  constructor
  · exact (List.foldl_append ..).symm
  · change count + (orders.dropped id).length = _
    rw [List.length_append, hCount, Nat.add_assoc]
  · refine List.Nodup.append hDistinct ?_ ?_
    · exact (orders.dropped_perm id).nodup_iff.mpr
        (nodup_reached _ _ id)
    · intro other hGone hOther
      exact (hBelow other hOther).1 hGone
  · intro other hOther child hChild
    rw [List.mem_append] at hOther ⊢
    by_cases hGone : child ∈ gone
    · exact .inl hGone
    rcases hOther with hBefore | hHere
    · exact .inl (hClosed other hBefore child hChild)
    · refine .inr ((hMem child).mpr ?_)
      rcases mem_reached.mp ((hMem other).mp hHere) with
        ⟨hStart, hReaches⟩
      refine mem_reached.mpr ⟨hStart, hReaches.tail ?_⟩
      exact (hLinked.mem_linked_unlinkAll children_dropAll
        gone other child).mpr
          ⟨(hBelow other hHere).1, hGone, hChild⟩
  · intro other hOther
    rcases List.mem_append.mp hOther with hBefore | hHere
    · exact hFallen other hBefore
    · rcases hBelow other hHere with
        ⟨-, hContains, hReaches⟩
      exact ⟨hContains, id,
        hLinked.reaches_comm.mp hReaches, hFalls⟩
  · intro other hOther hContains hOtherFalls
    rw [List.mem_append]
    rcases List.mem_append.mp hOther with hBefore | hLast
    · exact .inl (hDone other hBefore hContains hOtherFalls)
    · rw [List.mem_singleton.mp hLast]
      exact .inr hSelf

/- Gone is in the end who has a fallen ancestor. -/
theorem Swept.mem_gone
    (hLinked : pool.Linked)
    (hSwept : Swept falls pool before done gone state)
    (hAll :
      ∀ id, pool.contains id = true → falls id → id ∈ done)
    (id : Hash256) :
    id ∈ gone ↔
      pool.contains id = true ∧
        ∃ ancestor,
          pool.Reaches EntryInternal.parents id ancestor ∧
            falls ancestor := by
  refine ⟨hSwept.fallen id, ?_⟩
  rintro ⟨hContains, ancestor, hReaches, hFalls⟩
  have hThere : pool.contains ancestor = true := by
    rcases Relation.ReflTransGen.cases_tail hReaches with
      rfl | ⟨last, -, hLast⟩
    · exact hContains
    · exact hLinked.contains_linked (.inr hLast)
  have hStart := hSwept.swept ancestor
    (hAll ancestor hThere hFalls) hThere hFalls
  -- along the children, who has gone takes the next along
  have hDown :
      ∀ other,
        pool.Reaches EntryInternal.children ancestor other →
          other ∈ gone := by
    intro other hOther
    induction hOther with
    | refl => exact hStart
    | tail _ hChild ih => exact hSwept.closed _ ih _ hChild
  exact hDown id (hLinked.reaches_comm.mpr hReaches)

end Sweeping

section Reorganised

variable {c : Crypto} {base : Utxo} {spendHeight : UInt32}
variable {params : ChainParams} {pool : Mempool}

theorem Swept.step
    (hLinks : pool.ExactLinks)
    (hIndices : pool.ExactIndices)
    (walk : ∀ pool : Mempool, pool.Orders)
    {done gone : List Hash256}
    {state : Nat × Mempool}
    (hSwept :
      Swept
        (fun id => ¬Stands c base spendHeight params pool id)
        pool 0 done gone state)
    (id : Hash256) :
    ∃ more,
      Swept
        (fun id => ¬Stands c base spendHeight params pool id)
        pool 0 (done ++ [id]) more
        (sweepBy walk c base spendHeight params state id) := by
  have hLinked := hLinks.linked
  have hFind : state.2.find id =
      if id ∈ gone then none else pool.find id := by
    rw [hSwept.left, find_unlinkAll hLinked]
  unfold sweepBy
  cases hFound : state.2.find id with
  | none =>
      refine ⟨gone, hSwept.pass ?_⟩
      by_cases hGone : id ∈ gone
      · exact .inl hGone
      · refine .inr ?_
        rintro ⟨hContains, -⟩
        rw [if_neg hGone, hFound] at hFind
        rcases contains_iff.mp hContains with
          ⟨links, hLookup⟩
        rw [find_of_lookup hLookup] at hFind
        cases hFind
  | some entry =>
      rw [hFound] at hFind
      have hBefore : pool.find id = some entry := by
        split at hFind
        · cases hFind
        · exact hFind.symm
      have hJudged := hSwept.prunes.judged hLinks hIndices
        hFound c base spendHeight params
      dsimp only
      rw [hJudged]
      by_cases hPasses :
          judged c base spendHeight params pool entry = true
      · rw [if_pos hPasses]
        refine ⟨gone, hSwept.pass (.inr ?_)⟩
        rintro ⟨-, hFalls⟩
        exact hFalls ⟨entry, hBefore, hPasses⟩
      · rw [if_neg hPasses]
        have hThere : state.2.contains id = true := by
          rcases Option.map_eq_some_iff.mp hFound with
            ⟨links, hLookup, -⟩
          exact contains_iff.mpr ⟨links, hLookup⟩
        refine ⟨_, hSwept.drop hLinked (walk state.2) hThere ?_⟩
        rintro ⟨other, hOther, hStands⟩
        rw [hBefore, Option.some_inj] at hOther
        exact hPasses (hOther ▸ hStands)

theorem swept_removeForReorgBy
    (hLinks : pool.ExactLinks)
    (hIndices : pool.ExactIndices)
    (walk : ∀ pool : Mempool, pool.Orders) :
    ∃ gone,
      Swept
        (fun id => ¬Stands c base spendHeight params pool id)
        pool 0 (walk pool).keys gone
        (removeForReorgBy walk c pool base spendHeight
          params) := by
  have hAll :
      ∀ ids : List Hash256,
        ∃ gone,
          Swept
            (fun id =>
              ¬Stands c base spendHeight params pool id)
            pool 0 ids gone
            (ids.foldl
              (sweepBy walk c base spendHeight params)
              (0, pool)) := by
    intro ids
    induction ids using List.reverseRecOn with
    | nil => exact ⟨[], .start _ pool 0⟩
    | append_singleton ids id ih =>
        rcases ih with ⟨gone, hSwept⟩
        rw [List.foldl_append]
        exact hSwept.step hLinks hIndices walk id
  exact hAll (walk pool).keys

end Reorganised

/-
  The entries that are left are those that stand with all of
  their ancestors; they stand in what is left as well; and
  every order leaves the same.
-/
theorem removeForReorg_keeps
    (c : Crypto)
    (params : ChainParams)
    (pool : Mempool)
    (base : Utxo)
    (spendHeight : UInt32)
    (hLinks : pool.ExactLinks)
    (hIndices : pool.ExactIndices)
    (walk : ∀ pool : Mempool, pool.Orders) :
    (∀ id entry,
        (removeForReorgBy walk c pool base spendHeight
              params).2.find id = some entry ↔
          pool.find id = some entry ∧
            ∀ ancestor,
              pool.Reaches EntryInternal.parents id ancestor →
                Stands c base spendHeight params pool
                  ancestor) ∧
      (∀ id,
        (removeForReorgBy walk c pool base spendHeight
            params).2.contains id = true →
          Stands c base spendHeight params
            (removeForReorgBy walk c pool base spendHeight
              params).2 id) ∧
      ∀ others : ∀ pool : Mempool, pool.Orders,
        (removeForReorgBy others c pool base spendHeight
              params).1 =
            (removeForReorgBy walk c pool base spendHeight
              params).1 ∧
          (removeForReorgBy walk c pool base spendHeight
              params).2.Same
            (removeForReorgBy others c pool base spendHeight
              params).2 := by
  have hLinked := hLinks.linked
  have hKeys :
      ∀ (orders : pool.Orders) (id : Hash256),
        pool.contains id = true → id ∈ orders.keys := by
    intro orders id hContains
    exact orders.keys_perm.mem_iff.mpr
      (mem_wtxids.mpr hContains)
  rcases @swept_removeForReorgBy c base spendHeight params
      pool hLinks hIndices walk with ⟨gone, hSwept⟩
  have hGone := hSwept.mem_gone hLinked
    fun id hThere _ => hKeys (walk pool) id hThere
  have hFind : ∀ id,
      (removeForReorgBy walk c pool base spendHeight
          params).2.find id =
        if id ∈ gone then none else pool.find id := by
    intro id
    rw [hSwept.left, find_unlinkAll hLinked]
  have hKept : ∀ id entry,
      (removeForReorgBy walk c pool base spendHeight
            params).2.find id = some entry ↔
        pool.find id = some entry ∧
          ∀ ancestor,
            pool.Reaches EntryInternal.parents id ancestor →
              Stands c base spendHeight params pool
                ancestor := by
    intro id entry
    rw [hFind]
    constructor
    · intro hFound
      split at hFound
      · cases hFound
      · rename_i hStays
        refine ⟨hFound, ?_⟩
        intro ancestor hReaches
        by_contra hFalls
        rcases Option.map_eq_some_iff.mp hFound with
          ⟨links, hLookup, -⟩
        exact hStays ((hGone id).mpr
          ⟨contains_iff.mpr ⟨links, hLookup⟩, ancestor,
            hReaches, hFalls⟩)
    · rintro ⟨hFound, hStand⟩
      rw [if_neg]
      · exact hFound
      · intro hMember
        rcases ((hGone id).mp hMember).2 with
          ⟨ancestor, hReaches, hFalls⟩
        exact hFalls (hStand ancestor hReaches)
  refine ⟨hKept, ?_, ?_⟩
  · intro id hContains
    rcases contains_iff.mp hContains with ⟨links, hLookup⟩
    have hFound := find_of_lookup hLookup
    rcases (hKept id links.entry).mp hFound with
      ⟨hBefore, hStand⟩
    rcases hStand id .refl with ⟨entry, hSame, hJudged⟩
    rw [hBefore, Option.some_inj] at hSame
    refine ⟨links.entry, hFound, ?_⟩
    rw [hSwept.prunes.judged hLinks hIndices hFound, hSame]
    exact hJudged
  · intro others
    rcases @swept_removeForReorgBy c base spendHeight params
        pool hLinks hIndices others with ⟨also, hOther⟩
    have hAlso := hOther.mem_gone hLinked
      fun id hThere _ => hKeys (others pool) id hThere
    have hMembers : ∀ id, id ∈ gone ↔ id ∈ also :=
      fun id => (hGone id).trans (hAlso id).symm
    have hPerm : gone.Perm also :=
      (List.perm_ext_iff_of_nodup hSwept.distinct
        hOther.distinct).mpr hMembers
    refine ⟨?_, ?_⟩
    · rw [hSwept.count, hOther.count, hPerm.length_eq]
    · rw [hSwept.left, hOther.left]
      exact (Same.refl pool).unlinkAll hLinked hMembers

end Mempool

namespace Sample

/- Without the coin they are built on, neither stays. -/
theorem removeForReorg_keeps_family :
    (familyPool.removeForReorg Crypto.reference Utxo.empty 1
          regtestParams).2.find
        (parentPayment.wtxid Crypto.reference) = none ∧
      (familyPool.removeForReorg Crypto.reference Utxo.empty 1
            regtestParams).2.find
          (childPayment.wtxid Crypto.reference) = none := by
  have hFails :
      ∀ entry ∈
          familyPool.find
            (parentPayment.wtxid Crypto.reference),
        Mempool.judged Crypto.reference Utxo.empty 1
          regtestParams familyPool entry = false := by
    decide +kernel
  have hLink :
      parentPayment.wtxid Crypto.reference ∈
        familyPool.linked EntryInternal.parents
          (childPayment.wtxid Crypto.reference) := by
    decide +kernel
  have hKeeps := Mempool.removeForReorg_keeps
    Crypto.reference regtestParams familyPool Utxo.empty 1
    familyPool_exact.exactLinks familyPool_exact.exactIndices
    Mempool.Orders.listed
  rw [Mempool.removeForReorgBy_listed] at hKeeps
  have hGone :
      ∀ id,
        familyPool.Reaches EntryInternal.parents id
            (parentPayment.wtxid Crypto.reference) →
          (familyPool.removeForReorg Crypto.reference
            Utxo.empty 1 regtestParams).2.find id = none := by
    intro id hReaches
    apply Option.eq_none_iff_forall_ne_some.mpr
    intro entry hFind
    rcases ((hKeeps.1 id entry).mp hFind).2 _ hReaches with
      ⟨parent, hParent, hJudged⟩
    rw [hFails parent hParent] at hJudged
    cases hJudged
  exact ⟨hGone _ .refl, hGone _ (.single hLink)⟩

end Sample

end Amarian
