import Amarian.Mempool.Confirmation
import Amarian.Mempool.Sweep
import Amarian.Primitives.Binding
import Amarian.Utxo.Likeness

/-
  The pool after a block.

  What the block holds leaves alone, and what spends the same
  coins leaves with its descendants.  A coin that is left to
  an entry is on the chain still, has just come onto it, or
  is the output of a parent that has stayed: a parent that
  left without being confirmed took the entry along.

  Key definitions include:
    * `Entry.Confirmed`
    * `Entry.Conflicts`

  Key theorems include:
    * `Transaction.effects_of_txid`
    * `Mempool.removeConfirmed_left`
    * `Mempool.removeConflicting_swept`
    * `Mempool.removeForBlock_leaves`
-/

------------------------------------------------------------
-- What A Txid Stands For
------------------------------------------------------------

namespace Amarian

namespace Transaction

/- Every list the txid is computed from has a 64-bit length. -/
structure Counted
    (tx : Transaction) : Prop where
  inputs : tx.inputs.length < 2 ^ 64
  outputs : tx.outputs.length < 2 ^ 64
  programs :
    ∀ output ∈ tx.outputs,
      output.lock.program.length < 2 ^ 64

/- Whatever its witnesses, it has the same effects. -/
theorem effects_of_txid
    {c : Crypto}
    {txs : Set Transaction}
    (hTxids :
      Set.InjOn c.doubleSha256
        (serializeWithoutWitnesses '' txs))
    {tx other : Transaction}
    (hTx : tx ∈ txs)
    (hOther : other ∈ txs)
    (hCounted : tx.Counted)
    (hOtherCounted : other.Counted)
    (hSame : tx.txid c = other.txid c) :
    tx.inputs = other.inputs ∧ tx.outputs = other.outputs := by
  have hBytes := hTxids (Set.mem_image_of_mem _ hTx)
    (Set.mem_image_of_mem _ hOther) hSame
  have hInputs := inputs_eq_of_serialize_eq hCounted.inputs
    hOtherCounted.inputs hBytes
  refine ⟨hInputs, ?_⟩
  simp only [serializeWithoutWitnesses, List.append_assoc]
    at hBytes
  have hRest := (readU32_canonical.append_inj trivial trivial
    hBytes).2
  rw [hInputs] at hRest
  exact ((readList_canonical
    (TxOutput.readFields_canonical (2 ^ 64)) (by decide)
    TxOutput.minSerializedSize_le (2 ^ 64)).append_inj
      ⟨sized_of_lt hCounted.outputs,
        fun output hOutput =>
          sized_of_lt (hCounted.programs output hOutput)⟩
      ⟨sized_of_lt hOtherCounted.outputs,
        fun output hOutput =>
          sized_of_lt (hOtherCounted.programs output hOutput)⟩
      (List.append_cancel_left hRest)).1

/- The form of a transaction is that of its inputs. -/
theorem isCoinbase_congr
    {tx other : Transaction}
    (hSame : tx.inputs = other.inputs) :
    tx.isCoinbase = other.isCoinbase := by
  unfold isCoinbase
  rw [hSame]

end Transaction

------------------------------------------------------------
-- Coins At The Next Height
------------------------------------------------------------

/- What may be spent at one height may be spent later. -/
theorem checkTransactionInputs_later
    {c : Crypto}
    {params : ChainParams}
    {tx : Transaction}
    {spent : List Coin}
    {height next : UInt32}
    {fee : Int64}
    (hLater : height.toNat ≤ next.toNat)
    (hInputs :
      checkTransactionInputs c tx spent height params =
        .ok fee) :
    checkTransactionInputs c tx spent next params =
      .ok fee := by
  unfold checkTransactionInputs at hInputs ⊢
  rw [except_check_eq_ok, except_check_eq_ok,
    except_check_eq_ok, rejectIf_eq_ok, rejectIf_eq_ok,
    rejectIf_eq_ok] at hInputs ⊢
  rcases hInputs with ⟨hPlain, hLength, hMature, hRest⟩
  refine ⟨hPlain, hLength, ?_, hRest⟩
  rw [List.any_eq_false] at hMature ⊢
  intro coin hCoin hYoung
  apply hMature coin hCoin
  unfold isImmature at hYoung ⊢
  rw [Bool.and_eq_true, decide_eq_true_iff] at hYoung ⊢
  exact ⟨hYoung.1, by omega⟩

theorem mapM_related
    {α β : Type}
    {rel : β → β → Prop}
    {items : List α}
    {f g : α → Option β}
    {results : List β}
    (hResults : items.mapM f = some results)
    (hRelated :
      ∀ item ∈ items, ∀ result ∈ results,
        f item = some result →
          ∃ other, g item = some other ∧ rel result other) :
    ∃ others,
      items.mapM g = some others ∧
        List.Forall₂ rel results others := by
  induction items generalizing results with
  | nil =>
      cases hResults
      exact ⟨[], rfl, .nil⟩
  | cons item items ih =>
      rcases mapM_cons_eq_some.mp hResults with
        ⟨first, rest, hFirst, hRest, rfl⟩
      rcases hRelated item (List.mem_cons_self ..) first
        (List.mem_cons_self ..) hFirst with
        ⟨other, hOther, hRel⟩
      rcases ih hRest
        (fun item hItem result hResult =>
          hRelated item (List.mem_cons_of_mem _ hItem) result
            (List.mem_cons_of_mem _ hResult)) with
        ⟨others, hOthers, hAll⟩
      exact ⟨other :: others,
        mapM_cons_eq_some.mpr
          ⟨other, others, hOther, hOthers, rfl⟩,
        .cons hRel hAll⟩

------------------------------------------------------------
-- What The Block Holds
------------------------------------------------------------

/- The block holds the transaction, with some witness. -/
def Entry.Confirmed
    (c : Crypto)
    (block : Block)
    (entry : Entry) : Prop :=
  entry.txid ∈ block.transactions.map (Transaction.txid c)

/- The block spends a coin that the entry spends as well. -/
def Entry.Conflicts
    (block : Block)
    (entry : Entry) : Prop :=
  ∃ outpoint ∈ block.spentOutpoints, entry.spends outpoint

namespace Mempool

section Confirming

variable {c : Crypto} {block : Block} {pool : Mempool}

/- The entries that the block confirms. -/
def confirmed
    (c : Crypto)
    (block : Block)
    (pool : Mempool) : List Hash256 :=
  block.transactions.filterMap
    fun tx => pool.byTxid (tx.txid c)

theorem mem_confirmed
    (hIndices : pool.ExactIndices)
    {id : Hash256} :
    id ∈ confirmed c block pool ↔
      ∃ entry, pool.find id = some entry ∧
        entry.Confirmed c block := by
  unfold confirmed Entry.Confirmed
  rw [List.mem_filterMap]
  constructor
  · rintro ⟨tx, hTx, hIndexed⟩
    rcases (hIndices.txids _ _).mp hIndexed with
      ⟨links, hFound, hTxid⟩
    refine ⟨links.entry, find_of_lookup hFound, ?_⟩
    rw [hTxid]
    exact List.mem_map_of_mem hTx
  · rintro ⟨entry, hFind, hConfirmed⟩
    rcases Option.map_eq_some_iff.mp hFind with
      ⟨links, hFound, rfl⟩
    rcases List.mem_map.mp hConfirmed with ⟨tx, hTx, hTxid⟩
    refine ⟨tx, hTx, (hIndices.txids _ _).mpr
      ⟨links, hFound, hTxid.symm⟩⟩

/- What is confirmed leaves, and nothing else does. -/
theorem removeConfirmed_left
    (hLinks : pool.ExactLinks)
    (hIndices : pool.ExactIndices) :
    (removeConfirmed c block pool).2 =
      pool.unlinkAll (confirmed c block pool) := by
  have hLinked := hLinks.linked
  unfold removeConfirmed confirmed
  induction block.transactions using List.reverseRecOn with
  | nil => rfl
  | append_singleton txs tx ih =>
      rw [List.foldl_append, List.filterMap_append]
      generalize List.foldl _ (0, pool) txs = state at ih ⊢
      rw [List.foldl_cons, List.foldl_nil,
        List.filterMap_cons, List.filterMap_nil]
      generalize txs.filterMap
        (fun tx => pool.byTxid (tx.txid c)) = ids at ih ⊢
      have hThere := fun other =>
        hIndices.indexed.byTxid_unlinkAll hLinked ids
          (tx.txid c) other
      rw [← ih] at hThere
      cases hIndexed : pool.byTxid (tx.txid c) with
      | none =>
          have hNone : state.2.byTxid (tx.txid c) = none := by
            apply Option.eq_none_iff_forall_ne_some.mpr
            intro other hOther
            have hBefore := ((hThere other).mp hOther).2
            rw [hIndexed] at hBefore
            cases hBefore
          rw [hNone, List.append_nil]
          exact ih
      | some id =>
          have hUnlinked :
              pool.unlinkAll (ids ++ [id]) =
                state.2.unlink id := by
            rw [ih]
            exact List.foldl_append ..
          rw [hUnlinked]
          by_cases hGone : id ∈ ids
          · -- two transactions of the block share the txid
            have hNone :
                state.2.byTxid (tx.txid c) = none := by
              apply Option.eq_none_iff_forall_ne_some.mpr
              intro other hOther
              rcases (hThere other).mp hOther with
                ⟨hStays, hBefore⟩
              rw [hIndexed, Option.some_inj] at hBefore
              exact hStays (hBefore ▸ hGone)
            have hAbsent : state.2.entries.lookup id = none := by
              rw [ih, hLinked.lookup_unlinkAll, if_pos hGone]
            rw [hNone, unlink_of_absent hAbsent]
          · rw [(hThere id).mpr ⟨hGone, hIndexed⟩]
            rfl

end Confirming

------------------------------------------------------------
-- What The Block Overtakes
------------------------------------------------------------

section Conflicting

variable {block : Block} {pool : Mempool}

/- Removes who spends the outpoint, descendants included. -/
def dropSpender
    (state : Nat × Mempool)
    (outpoint : OutPoint) : Nat × Mempool :=
  match state.2.spentBy outpoint with
  | none => state
  | some spender =>
      let gone := state.2.removeRecursive spender
      (state.1 + gone.1, gone.2)

theorem removeConflicting_eq
    (block : Block)
    (state : Nat × Mempool) :
    removeConflicting block state =
      block.spentOutpoints.foldl dropSpender state := by
  unfold removeConflicting Block.spentOutpoints
  rw [List.foldl_flatMap]
  simp only [List.foldl_map]
  rfl

/- The entry is recorded as spending what the block spends. -/
def Overtaken
    (block : Block)
    (pool : Mempool)
    (id : Hash256) : Prop :=
  ∃ outpoint ∈ block.spentOutpoints,
    pool.spentBy outpoint = some id

theorem Swept.dropSpender
    (hLinks : pool.ExactLinks)
    (hIndices : pool.ExactIndices)
    {before : Nat}
    {done gone : List Hash256}
    {state : Nat × Mempool}
    (hSwept :
      Swept (Overtaken block pool) pool before done gone state)
    {outpoint : OutPoint}
    (hSpent : outpoint ∈ block.spentOutpoints) :
    ∃ more,
      Swept (Overtaken block pool) pool before
        (done ++ (pool.spentBy outpoint).toList) more
        (Mempool.dropSpender state outpoint) := by
  have hLinked := hLinks.linked
  have hThere := fun spender =>
    hIndices.indexed.spentBy_unlinkAll hLinked gone outpoint
      spender
  rw [← hSwept.left] at hThere
  unfold Mempool.dropSpender
  cases hBefore : pool.spentBy outpoint with
  | none =>
      have hNone : state.2.spentBy outpoint = none := by
        apply Option.eq_none_iff_forall_ne_some.mpr
        intro spender hSpender
        have hOld := ((hThere spender).mp hSpender).2
        rw [hBefore] at hOld
        cases hOld
      rw [hNone, Option.toList_none, List.append_nil]
      exact ⟨gone, hSwept⟩
  | some spender =>
      by_cases hGone : spender ∈ gone
      · have hNone : state.2.spentBy outpoint = none := by
          apply Option.eq_none_iff_forall_ne_some.mpr
          intro other hOther
          rcases (hThere other).mp hOther with
            ⟨hStays, hOld⟩
          rw [hBefore, Option.some_inj] at hOld
          exact hStays (hOld ▸ hGone)
        rw [hNone]
        exact ⟨gone, hSwept.pass (.inl hGone)⟩
      · rw [(hThere spender).mpr ⟨hGone, hBefore⟩]
        rcases (hIndices.spends _ _).mp hBefore with
          ⟨links, hFound, -⟩
        have hContains : state.2.contains spender = true := by
          rw [hSwept.left]
          exact (contains_unlinkAll hLinked gone spender).mpr
            ⟨contains_iff.mpr ⟨links, hFound⟩, hGone⟩
        exact ⟨_, hSwept.drop hLinked (.listed state.2)
          hContains ⟨outpoint, hSpent, hBefore⟩⟩

/- Who is overtaken leaves with its descendants. -/
theorem removeConflicting_swept
    (hLinks : pool.ExactLinks)
    (hIndices : pool.ExactIndices)
    (block : Block)
    (before : Nat) :
    ∃ gone,
      Swept (Overtaken block pool) pool before
        (block.spentOutpoints.filterMap pool.spentBy) gone
        (removeConflicting block (before, pool)) := by
  have hAll :
      ∀ outpoints : List OutPoint,
        (∀ outpoint ∈ outpoints,
            outpoint ∈ block.spentOutpoints) →
          ∃ gone,
            Swept (Overtaken block pool) pool before
              (outpoints.filterMap pool.spentBy) gone
              (outpoints.foldl Mempool.dropSpender
                (before, pool)) := by
    intro outpoints
    induction outpoints using List.reverseRecOn with
    | nil => exact fun _ => ⟨[], .start _ pool before⟩
    | append_singleton outpoints outpoint ih =>
        intro hSpent
        rw [List.forall_mem_append] at hSpent
        rcases ih hSpent.1 with ⟨gone, hSwept⟩
        rcases hSwept.dropSpender hLinks hIndices
          (hSpent.2 outpoint (List.mem_singleton_self _)) with
          ⟨more, hMore⟩
        refine ⟨more, ?_⟩
        rw [List.foldl_append, List.filterMap_append]
        exact hMore
  rw [removeConflicting_eq]
  exact hAll block.spentOutpoints fun _ hSpent => hSpent

/- In the end, who has an overtaken ancestor is gone. -/
theorem Swept.mem_overtaken
    (hLinks : pool.ExactLinks)
    {before : Nat}
    {gone : List Hash256}
    {state : Nat × Mempool}
    (hSwept :
      Swept (Overtaken block pool) pool before
        (block.spentOutpoints.filterMap pool.spentBy) gone
        state)
    (id : Hash256) :
    id ∈ gone ↔
      pool.contains id = true ∧
        ∃ ancestor,
          pool.Reaches EntryInternal.parents id ancestor ∧
            Overtaken block pool ancestor := by
  apply hSwept.mem_gone hLinks.linked
  rintro other - ⟨outpoint, hSpent, hSpender⟩
  exact List.mem_filterMap.mpr ⟨outpoint, hSpent, hSpender⟩

end Conflicting

------------------------------------------------------------
-- The Pool On The New Chain
------------------------------------------------------------

section Settling

variable {c : Crypto} {params : ChainParams}
variable {pool : Mempool} {block : Block}
variable {base after : Utxo} {result : ConnectResult}

/- The transactions of the block, and those that wait. -/
def together
    (pool : Mempool)
    (block : Block) : Set Transaction :=
  {tx | tx ∈ block.transactions ∨
    ∃ id entry, pool.find id = some entry ∧ entry.tx = tx}

/- The coin at an outpoint, on the chain or in the pool. -/
def coinFor
    (pool : Mempool)
    (base : Utxo)
    (spendHeight : UInt32)
    (outpoint : OutPoint) : Option Coin :=
  match base outpoint with
  | some found => some found
  | none =>
      (pool.findByTxid outpoint.txid).bind fun parent =>
        parent.tx.outputs[outpoint.index.toNat]?.map
          fun output =>
            { output := output
              height := spendHeight
              isCoinbase := false }

theorem resolveInputs_eq
    (pool : Mempool)
    (tx : Transaction)
    (base : Utxo)
    (spendHeight : UInt32) :
    pool.resolveInputs tx base spendHeight =
      tx.inputs.mapM fun input =>
        pool.coinFor base spendHeight input.outpoint :=
  rfl

theorem judged_iff
    {spendHeight : UInt32}
    {entry : Entry} :
    judged c base spendHeight params pool entry = true ↔
      ∃ spent fee,
        pool.resolveInputs entry.tx base spendHeight =
            some spent ∧
          checkTransactionInputs c entry.tx spent spendHeight
              params =
            .ok fee := by
  unfold judged
  cases pool.resolveInputs entry.tx base spendHeight with
  | none => simp
  | some spent =>
      dsimp only
      constructor
      · intro hOk
        cases hPasses :
            checkTransactionInputs c entry.tx spent
              spendHeight params with
        | error error =>
            rw [hPasses] at hOk
            cases hOk
        | ok fee => exact ⟨spent, fee, rfl, hPasses⟩
      · rintro ⟨found, fee, hSame, hPasses⟩
        rw [Option.some_inj] at hSame
        rw [hSame, hPasses]
        rfl

/- An input of an entry that is not overtaken finds its coin. -/
theorem coin_after
    (hLinks : pool.ExactLinks)
    (hIndices : pool.ExactIndices)
    (hIds :
      ∀ id entry, pool.find id = some entry →
        entry.txid = entry.tx.txid c)
    (hTxids :
      Set.InjOn c.doubleSha256
        (Transaction.serializeWithoutWitnesses ''
          pool.together block))
    (hCounted : ∀ tx ∈ pool.together block, tx.Counted)
    (hValid :
      ∀ id, pool.contains id = true →
        Stands c base block.header.height params pool id)
    (hConnect :
      Utxo.connectBlock c params block base =
        .ok (result, after))
    {outpoint : OutPoint}
    (hUnspent : outpoint ∉ block.spentOutpoints)
    (next : UInt32)
    {coin : Coin}
    (hStored : isStored coin.output = true)
    (hCoin :
      pool.coinFor base block.header.height outpoint =
        some coin) :
    ∃ later,
      (pool.unlinkAll (confirmed c block pool)).coinFor after
          next outpoint =
        some later ∧
        coin.alike later := by
  have hLinked := hLinks.linked
  have hIndexed := fun id =>
    hIndices.indexed.byTxid_unlinkAll hLinked
      (confirmed c block pool) outpoint.txid id
  unfold coinFor at hCoin ⊢
  cases hBase : base outpoint with
  | some found =>
      rw [hBase] at hCoin
      cases hCoin
      rw [Utxo.connectBlock_kept hConnect hBase hUnspent]
      exact ⟨coin, rfl, rfl, rfl, fun _ => rfl⟩
  | none =>
      rw [hBase] at hCoin
      rcases Option.bind_eq_some_iff.mp hCoin with
        ⟨parent, hParent, hOutput⟩
      rcases Option.bind_eq_some_iff.mp hParent with
        ⟨parentId, hByTxid, hFind⟩
      rcases Option.map_eq_some_iff.mp hOutput with
        ⟨output, hAt, rfl⟩
      rcases Option.map_eq_some_iff.mp hFind with
        ⟨links, hFound, rfl⟩
      rcases (hIndices.txids _ _).mp hByTxid with
        ⟨same, hSame, hTxid⟩
      rw [hFound, Option.some_inj] at hSame
      subst hSame
      by_cases hConfirmed : links.entry.Confirmed c block
      · -- the parent is on the chain now, its outputs with it
        rcases List.mem_map.mp hConfirmed with
          ⟨tx, hTx, hMined⟩
        rw [hIds parentId links.entry hFind] at hMined hTxid
        have hWaiting : links.entry.tx ∈ pool.together block :=
          .inr ⟨parentId, links.entry, hFind, rfl⟩
        have hThere : tx ∈ pool.together block := .inl hTx
        rcases Transaction.effects_of_txid hTxids hThere
          hWaiting (hCounted _ hThere) (hCounted _ hWaiting)
          hMined with ⟨hInputs, hOutputs⟩
        rcases hValid parentId
          (contains_iff.mpr ⟨links, hFound⟩) with
          ⟨entry, hEntry, hJudged⟩
        rw [hFind, Option.some_inj] at hEntry
        subst hEntry
        rcases judged_iff.mp hJudged with
          ⟨spent, fee, -, hPasses⟩
        have hPlain : tx.isCoinbase = false := by
          rw [Transaction.isCoinbase_congr hInputs]
          exact (checkTransactionInputs_stored hPasses).1
        have hOutPoint :
            outPointFor (tx.txid c) outpoint.index.toNat =
              outpoint := by
          rw [hMined, hTxid, outPointFor, UInt32.ofNat_toNat]
        rw [← hOutputs] at hAt
        have hMade := Utxo.connectBlock_made hConnect hTx
          hPlain hAt hStored (by rwa [hOutPoint])
        rw [hOutPoint] at hMade
        rw [hMade]
        exact ⟨_, rfl, rfl, rfl, fun _ => rfl⟩
      · -- the parent waits on, and the chain has no such coin
        have hNone : after outpoint = none := by
          by_contra hSome
          apply hConfirmed
          rw [Entry.Confirmed, hTxid]
          exact Utxo.connectBlock_origin hConnect hBase hSome
        have hStays :
            parentId ∉ confirmed c block pool := by
          intro hGone
          rcases (mem_confirmed hIndices).mp hGone with
            ⟨entry, hEntry, hHeld⟩
          rw [hFind, Option.some_inj] at hEntry
          exact hConfirmed (hEntry ▸ hHeld)
        have hLeft :
            (pool.unlinkAll (confirmed c block pool)).findByTxid
                outpoint.txid =
              some links.entry := by
          rw [findByTxid, (hIndexed parentId).mpr
            ⟨hStays, hByTxid⟩, Option.bind_some,
            find_unlinkAll hLinked, if_neg hStays, hFind]
        rw [hNone, hLeft]
        refine ⟨_, by
          rw [Option.bind_some, hAt, Option.map_some], ?_⟩
        refine ⟨rfl, rfl, ?_⟩
        intro hYoung
        cases hYoung

/-
  What an entry finds in the whole pool before the block, it
  finds in what is left of it, with the same value.
-/
theorem resolves_after
    (hLinks : pool.ExactLinks)
    (hIndices : pool.ExactIndices)
    (hIds :
      ∀ id entry, pool.find id = some entry →
        entry.txid = entry.tx.txid c)
    (hTxids :
      Set.InjOn c.doubleSha256
        (Transaction.serializeWithoutWitnesses ''
          pool.together block))
    (hCounted : ∀ tx ∈ pool.together block, tx.Counted)
    (hValid :
      ∀ id, pool.contains id = true →
        Stands c base block.header.height params pool id)
    (hConnect :
      Utxo.connectBlock c params block base =
        .ok (result, after))
    {next : UInt32}
    (hNext :
      block.header.height.toNat ≤ next.toNat)
    {id : Hash256}
    {entry : Entry}
    (hFind : pool.find id = some entry)
    (hFree : ¬entry.Conflicts block) :
    judged c after next params
      (pool.unlinkAll (confirmed c block pool)) entry =
        true := by
  rcases Option.map_eq_some_iff.mp hFind with
    ⟨links, hLookup, -⟩
  rcases hValid id (contains_iff.mpr ⟨links, hLookup⟩) with
    ⟨same, hSame, hJudged⟩
  rw [hFind, Option.some_inj] at hSame
  subst hSame
  rcases judged_iff.mp hJudged with
    ⟨spent, fee, hResolved, hPasses⟩
  have hStored := (checkTransactionInputs_stored hPasses).2.2
  rw [resolveInputs_eq] at hResolved
  have hLater :
      ∃ others,
        entry.tx.inputs.mapM
            (fun input =>
              (pool.unlinkAll
                (confirmed c block pool)).coinFor after next
                  input.outpoint) =
          some others ∧
          List.Forall₂ Coin.alike spent others := by
    apply mapM_related hResolved
    intro input hInput coin hCoin hFound
    have hUnspent :
        input.outpoint ∉ block.spentOutpoints := by
      intro hSpent
      exact hFree ⟨input.outpoint, hSpent,
        List.mem_map_of_mem hInput⟩
    exact coin_after hLinks hIndices hIds hTxids hCounted
      hValid hConnect hUnspent next (hStored coin hCoin)
      hFound
  rcases hLater with ⟨others, hOthers, hAlike⟩
  rw [checkTransactionInputs_like Likeness.coin c entry.tx
    block.header.height params hAlike] at hPasses
  exact judged_iff.mpr ⟨others, fee, hOthers,
    checkTransactionInputs_later hNext hPasses⟩

end Settling

/-
  After a block that connects, no entry is in it or against
  it, and every entry is good for the next height; who has
  left was in the block, or depends on who was against it.
-/
theorem removeForBlock_leaves
    (c : Crypto)
    (params : ChainParams)
    (pool : Mempool)
    (block : Block)
    (base after : Utxo)
    (result : ConnectResult)
    (next : UInt32)
    (hLinks : pool.ExactLinks)
    (hIndices : pool.ExactIndices)
    (hIds :
      ∀ id entry, pool.find id = some entry →
        entry.txid = entry.tx.txid c)
    (hTxids :
      Set.InjOn c.doubleSha256
        (Transaction.serializeWithoutWitnesses ''
          pool.together block))
    (hCounted : ∀ tx ∈ pool.together block, tx.Counted)
    (hValid :
      ∀ id, pool.contains id = true →
        Stands c base block.header.height params pool id)
    (hConnect :
      Utxo.connectBlock c params block base =
        .ok (result, after))
    (hNext :
      next.toNat = block.header.height.toNat + 1) :
    (∀ id entry,
        (pool.removeForBlock c block).2.find id =
            some entry →
          pool.find id = some entry ∧
            ¬entry.Confirmed c block ∧
            ¬entry.Conflicts block ∧
            Stands c after next params
              (pool.removeForBlock c block).2 id) ∧
      ∀ id entry,
        pool.find id = some entry →
          (pool.removeForBlock c block).2.find id = none →
            entry.Confirmed c block ∨
              ∃ other conflict,
                pool.find other = some conflict ∧
                  ¬conflict.Confirmed c block ∧
                  conflict.Conflicts block ∧
                  pool.Reaches EntryInternal.children other
                    id := by
  have hLinked := hLinks.linked
  let ids := confirmed c block pool
  have hRestLinks : (pool.unlinkAll ids).ExactLinks :=
    hLinks.unlinkAll ids
  have hRestIndices : (pool.unlinkAll ids).ExactIndices :=
    hIndices.unlinkAll hLinks ids
  have hRestFind := find_unlinkAll hLinked ids
  rcases removeConflicting_swept hRestLinks hRestIndices block
    (removeConfirmed c block pool).1 with ⟨gone, hSwept⟩
  have hPasses :
      removeConflicting block
          ((removeConfirmed c block pool).1,
            pool.unlinkAll ids) =
        pool.removeForBlock c block := by
    unfold removeForBlock
    rw [← removeConfirmed_left hLinks hIndices]
  rw [hPasses] at hSwept
  have hGone := hSwept.mem_overtaken hRestLinks
  have hFind : ∀ id,
      (pool.removeForBlock c block).2.find id =
        if id ∈ gone then none
        else (pool.unlinkAll ids).find id := by
    intro id
    rw [hSwept.left, find_unlinkAll hRestLinks.linked]
  constructor
  · intro id entry hKept
    have hStays : id ∉ gone := by
      intro hMember
      rw [hFind, if_pos hMember] at hKept
      cases hKept
    have hRest : (pool.unlinkAll ids).find id = some entry := by
      rw [hFind, if_neg hStays] at hKept
      exact hKept
    have hWaits : id ∉ ids := by
      intro hMember
      rw [hRestFind, if_pos hMember] at hRest
      cases hRest
    have hBefore : pool.find id = some entry := by
      rw [hRestFind, if_neg hWaits] at hRest
      exact hRest
    rcases Option.map_eq_some_iff.mp hRest with
      ⟨links, hLookup, hEntry⟩
    have hFree : ¬entry.Conflicts block := by
      rintro ⟨outpoint, hSpent, hSpends⟩
      apply hStays
      refine (hGone id).mpr ⟨contains_iff.mpr
        ⟨links, hLookup⟩, id, .refl, outpoint, hSpent, ?_⟩
      exact (hRestIndices.spends _ _).mpr
        ⟨links, hLookup, hEntry ▸ hSpends⟩
    refine ⟨hBefore, ?_, hFree, entry, hKept, ?_⟩
    · intro hConfirmed
      exact hWaits ((mem_confirmed hIndices).mpr
        ⟨entry, hBefore, hConfirmed⟩)
    · -- nothing that the entry spends from has left behind it
      rw [hSwept.prunes.judged hRestLinks hRestIndices hKept]
      exact resolves_after hLinks hIndices hIds hTxids
        hCounted hValid hConnect (by omega) hBefore hFree
  · intro id entry hBefore hLeft
    by_cases hMember : id ∈ ids
    · rcases (mem_confirmed hIndices).mp hMember with
        ⟨same, hSame, hConfirmed⟩
      rw [hBefore, Option.some_inj] at hSame
      exact .inl (hSame ▸ hConfirmed)
    · right
      have hOvertaken : id ∈ gone := by
        by_contra hStays
        rw [hFind, if_neg hStays, hRestFind, if_neg hMember,
          hBefore] at hLeft
        cases hLeft
      rcases ((hGone id).mp hOvertaken).2 with
        ⟨other, hReaches, outpoint, hSpent, hSpender⟩
      rcases (hRestIndices.spends _ _).mp hSpender with
        ⟨links, hLookup, hSpends⟩
      have hRest := find_of_lookup hLookup
      rw [hRestFind] at hRest
      split at hRest
      · cases hRest
      rename_i hWaits
      refine ⟨other, links.entry, hRest, ?_,
        ⟨outpoint, hSpent, hSpends⟩, ?_⟩
      · intro hConfirmed
        exact hWaits ((mem_confirmed hIndices).mpr
          ⟨links.entry, hRest, hConfirmed⟩)
      · have hDown := hRestLinks.linked.reaches_comm.mpr
          hReaches
        exact Relation.ReflTransGen.mono
          (fun _ _ hLink =>
            ((hLinked.mem_linked_unlinkAll children_dropAll
              ids _ _).mp hLink).2.2) _ _ hDown

end Mempool

------------------------------------------------------------
-- A Parent Mined With Another Witness
------------------------------------------------------------

namespace Sample

/- A witness that differs from the empty one. -/
def otherWitness : Witness :=
  { condition := { version := 3, threshold := 0, keys := [] }
    signatures := [] }

/- The same transaction under another witness. -/
def parentRewitnessed : Transaction :=
  { parentPayment with witnesses := [otherWitness] }

/- Pays nobody. -/
def freeCoinbase : Transaction :=
  { version := 1
    inputs := [makeCoinbaseInput 1]
    outputs := []
    locktime := 0
    witnesses := []
    coinbaseData := [] }

/- Confirms the transaction under the other witness. -/
def rewitnessedBlock : Block :=
  { parentBlock with
    transactions := [freeCoinbase, parentRewitnessed] }

theorem together_family
    {tx : Transaction}
    (hTx : tx ∈ familyPool.together rewitnessedBlock) :
    tx ∈ [freeCoinbase, parentRewitnessed, parentPayment,
      childPayment] := by
  have hAll :
      ∀ entry ∈ familyPool.entries.entries,
        entry.2.entry.tx ∈
          [freeCoinbase, parentRewitnessed, parentPayment,
            childPayment] := by
    decide +kernel
  rcases hTx with hMined | ⟨id, entry, hFind, rfl⟩
  · exact List.mem_append_left [parentPayment, childPayment]
      hMined
  · rcases Option.map_eq_some_iff.mp hFind with
      ⟨links, hFound, rfl⟩
    exact hAll _ (AList.mem_lookup_iff.mp hFound)

theorem together_txids :
    Set.InjOn Crypto.reference.doubleSha256
      (Transaction.serializeWithoutWitnesses ''
        familyPool.together rewitnessedBlock) := by
  have hNodup :
      (([freeCoinbase, parentPayment, childPayment].map
        Transaction.serializeWithoutWitnesses).map
          Crypto.reference.doubleSha256).Nodup := by
    decide +kernel
  have hAmong :
      ∀ bytes ∈ Transaction.serializeWithoutWitnesses ''
          familyPool.together rewitnessedBlock,
        bytes ∈
          [freeCoinbase, parentPayment, childPayment].map
            Transaction.serializeWithoutWitnesses := by
    rintro _ ⟨tx, hTx, rfl⟩
    have hListed :
        ∀ tx ∈ [freeCoinbase, parentRewitnessed,
            parentPayment, childPayment],
          tx.serializeWithoutWitnesses ∈
            [freeCoinbase, parentPayment, childPayment].map
              Transaction.serializeWithoutWitnesses := by
      decide +kernel
    exact hListed tx (together_family hTx)
  intro first hFirst second hSecond hSame
  exact List.inj_on_of_nodup_map hNodup (hAmong _ hFirst)
    (hAmong _ hSecond) hSame

theorem together_counted :
    ∀ tx ∈ familyPool.together rewitnessedBlock,
      tx.Counted := by
  have hListed :
      ∀ tx ∈ [freeCoinbase, parentRewitnessed,
          parentPayment, childPayment],
        tx.inputs.length < 2 ^ 64 ∧
          tx.outputs.length < 2 ^ 64 ∧
          ∀ output ∈ tx.outputs,
            output.lock.program.length < 2 ^ 64 := by
    decide
  intro tx hTx
  rcases hListed tx (together_family hTx) with
    ⟨hInputs, hOutputs, hPrograms⟩
  exact ⟨hInputs, hOutputs, hPrograms⟩

theorem family_stands :
    ∀ id, familyPool.contains id = true →
      Mempool.Stands Crypto.reference oneCoin 1 regtestParams
        familyPool id := by
  have hAll :
      ∀ entry ∈ familyPool.entries.entries,
        Mempool.judged Crypto.reference oneCoin 1
          regtestParams familyPool entry.2.entry = true := by
    decide +kernel
  intro id hContains
  rcases Mempool.contains_iff.mp hContains with
    ⟨links, hFound⟩
  exact ⟨links.entry, Mempool.find_of_lookup hFound,
    hAll _ (AList.mem_lookup_iff.mp hFound)⟩

/- The child stays, on a coin of the chain now. -/
theorem removeForBlock_leaves_family :
    ∃ result after,
      Utxo.connectBlock Crypto.reference regtestParams
          rewitnessedBlock oneCoin =
        .ok (result, after) ∧
        ∀ id entry,
          (familyPool.removeForBlock Crypto.reference
              rewitnessedBlock).2.find id = some entry →
            familyPool.find id = some entry ∧
              ¬entry.Confirmed Crypto.reference
                rewitnessedBlock ∧
              ¬entry.Conflicts rewitnessedBlock ∧
              Mempool.Stands Crypto.reference after 2
                regtestParams
                (familyPool.removeForBlock Crypto.reference
                  rewitnessedBlock).2 id := by
  have hOk :
      (Utxo.connectBlock Crypto.reference regtestParams
        rewitnessedBlock oneCoin).isOk = true := by
    decide +kernel
  cases hConnect :
      Utxo.connectBlock Crypto.reference regtestParams
        rewitnessedBlock oneCoin with
  | error error =>
      rw [hConnect] at hOk
      cases hOk
  | ok connected =>
      refine ⟨connected.1, connected.2, rfl, ?_⟩
      exact (Mempool.removeForBlock_leaves Crypto.reference
        regtestParams familyPool rewitnessedBlock oneCoin
        connected.2 connected.1 2 familyPool_exact.exactLinks
        familyPool_exact.exactIndices
        (fun id entry hFind => by
          rcases Option.map_eq_some_iff.mp hFind with
            ⟨links, hFound, rfl⟩
          exact (familyPool_exact.ids id links hFound).2.symm)
        together_txids together_counted family_stands
        hConnect rfl).1

end Sample

end Amarian
