import Amarian.Crypto.Sha256
import Amarian.Mempool.Runs
import Amarian.Utxo.Txids

/-
  Pools whose links and indices say exactly what their
  entries say.

  A pool is exact as long as no entry that stays names the
  id of an arrival: such an entry is never linked to it.  An
  entry comes to name an id that is not in the pool when its
  parent left alone, which is what a block does to it.

  Key definitions include:
    * `Mempool.Exact`
    * `Mempool.Orderly`

  Key theorems include:
    * `Mempool.exact_of_orderly`
-/

------------------------------------------------------------
-- Exact Pools
------------------------------------------------------------

namespace Amarian

namespace Mempool

/- Links, indices and totals are what the entries say. -/
structure Exact
    (c : Crypto)
    (pool : Mempool) : Prop where
  ids :
    ∀ id links, pool.entries.lookup id = some links →
      links.entry.tx.wtxid c = id ∧
        links.entry.tx.txid c = links.entry.txid
  inside :
    ∀ id links, pool.entries.lookup id = some links →
      ∀ other, other ∈ links.children ∨
          other ∈ links.parents →
        pool.contains other = true
  links :
    ∀ id links, pool.entries.lookup id = some links →
      ∀ other found,
        pool.entries.lookup other = some found →
          (other ∈ links.children ↔
            found.entry.names links.entry.txid) ∧
          (id ∈ found.parents ↔
            found.entry.names links.entry.txid)
  spends :
    ∀ outpoint id, pool.spentBy outpoint = some id ↔
      ∃ links, pool.entries.lookup id = some links ∧
        links.entry.spends outpoint
  txids :
    ∀ txid id, pool.byTxid txid = some id ↔
      ∃ links, pool.entries.lookup id = some links ∧
        links.entry.txid = txid
  weight : (pool.totalWeight : Int) = pool.exactWeight
  fees : pool.totalFees.toInt = pool.exactFees
  acyclic :
    ∀ id, ¬pool.Beyond EntryInternal.parents id id
  ancestors :
    ∀ id,
      {other |
        pool.Beyond EntryInternal.parents id other}.encard ≤
          maxMempoolAncestors
  descendants :
    ∀ id,
      {other |
        pool.Beyond EntryInternal.children id
          other}.encard ≤ maxMempoolDescendants
  light : pool.totalWeight ≤ maxMempoolWeight

/-
  What the links and the id index of an exact pool add to
  those of a sound one: every id is indexed, and every named
  entry is a parent.
-/
structure Tied
    (txs : Set Transaction)
    (pool : Mempool) : Prop where
  offered :
    ∀ id links, pool.entries.lookup id = some links →
      links.entry.tx ∈ txs
  indexed :
    ∀ id links, pool.entries.lookup id = some links →
      pool.byTxid links.entry.txid = some id
  parents :
    ∀ id links, pool.entries.lookup id = some links →
      ∀ other found,
        pool.entries.lookup other = some found →
          found.entry.names links.entry.txid →
            id ∈ found.parents

/- In an exact pool the fees do not wrap either. -/
structure Complete
    (txs : Set Transaction)
    (pool : Mempool) : Prop where
  offered :
    ∀ id links, pool.entries.lookup id = some links →
      links.entry.tx ∈ txs
  indexed :
    ∀ id links, pool.entries.lookup id = some links →
      pool.byTxid links.entry.txid = some id
  parents :
    ∀ id links, pool.entries.lookup id = some links →
      ∀ other found,
        pool.entries.lookup other = some found →
          found.entry.names links.entry.txid →
            id ∈ found.parents
  fees : pool.exactFees < 2 ^ 63

theorem exactFees_nonneg
    {c : Crypto}
    {pool : Mempool}
    (hSound : pool.Sound c) :
    0 ≤ pool.exactFees := by
  apply Table.total_nonneg
  intro id links hFound
  exact Int.le_of_lt (hSound.admitted id links hFound).fee

theorem Complete.tied
    {txs : Set Transaction}
    {pool : Mempool}
    (hComplete : pool.Complete txs) :
    pool.Tied txs :=
  ⟨hComplete.offered, hComplete.indexed, hComplete.parents⟩

theorem Sound.inside
    {c : Crypto}
    {pool : Mempool}
    (hSound : pool.Sound c) :
    ∀ id links, pool.entries.lookup id = some links →
      ∀ other, other ∈ links.children ∨
          other ∈ links.parents →
        pool.contains other = true := by
  intro id links hFound other hOther
  apply hSound.linked.contains_linked
  exact hOther.imp
    (fun hChild => mem_linked.mpr ⟨links, hFound, hChild⟩)
    (fun hParent => mem_linked.mpr ⟨links, hFound, hParent⟩)

theorem Tied.links
    {c : Crypto}
    {txs : Set Transaction}
    {pool : Mempool}
    (hSound : pool.Sound c)
    (hTied : pool.Tied txs) :
    ∀ id links, pool.entries.lookup id = some links →
      ∀ other found,
        pool.entries.lookup other = some found →
          (other ∈ links.children ↔
            found.entry.names links.entry.txid) ∧
          (id ∈ found.parents ↔
            found.entry.names links.entry.txid) := by
  intro id links hFound other found hOther
  have hParents :
      id ∈ found.parents ↔
        found.entry.names links.entry.txid := by
    constructor
    · intro hParent
      exact hSound.named other found hOther id hParent links
        hFound
    · exact hTied.parents id links hFound other found hOther
  refine ⟨?_, hParents⟩
  rw [← hParents]
  have hComm := hSound.linked.mem_linked_comm id other
  unfold linked at hComm
  rw [hFound, hOther] at hComm
  exact hComm

theorem Tied.txids
    {c : Crypto}
    {txs : Set Transaction}
    {pool : Mempool}
    (hSound : pool.Sound c)
    (hTied : pool.Tied txs) :
    ∀ txid id, pool.byTxid txid = some id ↔
      ∃ links, pool.entries.lookup id = some links ∧
        links.entry.txid = txid := by
  intro txid id
  constructor
  · exact hSound.indexed txid id
  · rintro ⟨links, hFound, rfl⟩
    exact hTied.indexed id links hFound

theorem Complete.exact
    {c : Crypto}
    {txs : Set Transaction}
    {pool : Mempool}
    (hSound : pool.Sound c)
    (hLight : pool.totalWeight ≤ maxMempoolWeight)
    (hComplete : pool.Complete txs) :
    pool.Exact c := by
  constructor
  · intro id links hFound
    have hAdmitted := hSound.admitted id links hFound
    exact ⟨hAdmitted.key, hAdmitted.txid.symm⟩
  · exact hSound.inside
  · exact hComplete.tied.links hSound
  · exact hSound.spends
  · exact hComplete.tied.txids hSound
  · exact hSound.weight
  · rw [hSound.fees]
    have hNonneg := exactFees_nonneg hSound
    have hBound := hComplete.fees
    exact Int64.toInt_ofInt_of_le (by omega) hBound
  · exact hSound.not_beyond_self
  · exact hSound.ancestors
  · exact hSound.descendants
  · exact hLight

------------------------------------------------------------
-- Removal
------------------------------------------------------------

theorem exactFees_unlink_le
    {c : Crypto}
    {pool : Mempool}
    (hSound : pool.Sound c)
    (id : Hash256) :
    (pool.unlink id).exactFees ≤ pool.exactFees := by
  cases hFound : pool.entries.lookup id with
  | none => rw [unlink_of_absent hFound]
  | some doomed =>
      have hTotal :=
        total_unlink (fun entry => entry.fee.toInt) hFound
      have hFee := (hSound.admitted id doomed hFound).fee
      unfold exactFees
      omega

theorem Tied.unlink
    {c : Crypto}
    {txs : Set Transaction}
    {pool : Mempool}
    (hSound : pool.Sound c)
    (hTied : pool.Tied txs)
    (id : Hash256) :
    (pool.unlink id).Tied txs := by
  have hLookup :
      ∀ {other : Hash256} {links : EntryInternal},
        (pool.unlink id).entries.lookup other = some links ↔
          other ≠ id ∧
            ∃ old, pool.entries.lookup other = some old ∧
              dropAll [id] old = links :=
    hSound.linked.lookup_unlink_eq_some
  constructor
  · intro other links hFound
    rcases hLookup.mp hFound with ⟨-, old, hOld, rfl⟩
    exact hTied.offered other old hOld
  · intro other links hFound
    rcases hLookup.mp hFound with ⟨hNe, old, hOld, rfl⟩
    exact (hSound.byTxid_unlink _ _).mpr
      ⟨hNe, hTied.indexed other old hOld⟩
  · intro here links hFound other found hOther hNames
    rcases hLookup.mp hFound with ⟨hNe, old, hOld, rfl⟩
    rcases hLookup.mp hOther with ⟨-, held, hHeld, rfl⟩
    refine List.mem_filter.mpr ⟨?_, by simpa using hNe⟩
    exact hTied.parents here old hOld other held hHeld
      hNames

theorem Tied.sheds
    {c : Crypto}
    {txs : Set Transaction}
    {pool after : Mempool}
    (hSound : pool.Sound c)
    (hTied : pool.Tied txs)
    (hSheds : pool.Sheds after) :
    after.Tied txs := by
  rcases hSheds with ⟨ids, rfl⟩
  induction ids generalizing pool with
  | nil => exact hTied
  | cons id ids ih =>
      exact ih (hSound.unlink id) (hTied.unlink hSound id)

theorem exactFees_sheds_le
    {c : Crypto}
    {pool after : Mempool}
    (hSound : pool.Sound c)
    (hSheds : pool.Sheds after) :
    after.exactFees ≤ pool.exactFees := by
  rcases hSheds with ⟨ids, rfl⟩
  induction ids generalizing pool with
  | nil => exact Int.le_refl _
  | cons id ids ih =>
      exact (ih (hSound.unlink id)).trans
        (exactFees_unlink_le hSound id)

theorem Complete.sheds
    {c : Crypto}
    {txs : Set Transaction}
    {pool after : Mempool}
    (hSound : pool.Sound c)
    (hComplete : pool.Complete txs)
    (hSheds : pool.Sheds after) :
    after.Complete txs := by
  have hTied := hComplete.tied.sheds hSound hSheds
  have hLess := exactFees_sheds_le hSound hSheds
  have hBound := hComplete.fees
  exact
    { offered := hTied.offered
      indexed := hTied.indexed
      parents := hTied.parents
      fees := by omega }

------------------------------------------------------------
-- Arrivals
------------------------------------------------------------

/- An arrival that nothing in the pool is waiting for. -/
structure Welcome
    (c : Crypto)
    (pool : Mempool)
    (tx : Transaction)
    (fee : Int64) : Prop where
  own :
    ∀ input ∈ tx.inputs, input.outpoint.txid ≠ tx.txid c
  unnamed :
    ∀ id links, pool.entries.lookup id = some links →
      id ∉ pool.doomedBy tx →
        ¬links.entry.names (tx.txid c)
  fees :
    (pool.unlinkAll (pool.doomedBy tx)).exactFees +
      fee.toInt < 2 ^ 63

/- Only an offer that passes the input rules matters. -/
def OrderlyOffer
    (c : Crypto)
    (params : ChainParams)
    (pool : Mempool)
    (tx : Transaction)
    (spentCoins : List Coin)
    (spendHeight : UInt32) : Prop :=
  ∀ fee,
    checkTransactionInputs c tx spentCoins spendHeight
        params = .ok fee →
      pool.Welcome c tx fee

/- What the callers of the pool keep to. -/
def Orderly
    (c : Crypto)
    (params : ChainParams)
    (pool : Mempool) : PoolCall → Prop
  | .accept tx base spendHeight _ =>
      ∀ spent,
        pool.resolveInputs tx base spendHeight = some spent →
          pool.OrderlyOffer c params tx spent spendHeight
  | .acceptSpending tx spentCoins spendHeight _ =>
      pool.OrderlyOffer c params tx spentCoins spendHeight
  | _ => True

section Arrivals

variable {c : Crypto} {params : ChainParams}
variable {txs : Set Transaction} {pool : Mempool}
variable {tx : Transaction} {spentCoins : List Coin}
variable {spendHeight : UInt32} {fee : Int64}

/- A copy of an entry conflicts with it. -/
theorem Tied.mem_doomedBy_of_txid
    (hIds : Utxo.IdsTellInputs c txs)
    (hSound : pool.Sound c)
    (hTied : pool.Tied txs)
    (hTx : tx ∈ txs)
    {id : Hash256}
    {links : EntryInternal}
    (hFound : pool.entries.lookup id = some links)
    (hTxid : links.entry.txid = tx.txid c) :
    id ∈ pool.doomedBy tx := by
  have hAdmitted := hSound.admitted id links hFound
  have hInputs : links.entry.tx.inputs = tx.inputs := by
    apply hIds _ (hTied.offered id links hFound) _ hTx
    rw [← hAdmitted.txid, hTxid]
  rcases List.exists_mem_of_ne_nil _ hAdmitted.inputs with
    ⟨input, hInput⟩
  refine hSound.mem_doomedBy_of_spentBy
    (hInputs ▸ hInput) ?_
  exact (hSound.spends _ _).mpr
    ⟨links, hFound, List.mem_map_of_mem hInput⟩

theorem Tied.takeIn
    (hIds : Utxo.IdsTellInputs c txs)
    (hSound : pool.Sound c)
    (hTied : pool.Tied txs)
    (hTx : tx ∈ txs)
    (hAdmits :
      pool.Admits c tx spentCoins spendHeight params fee)
    (hOwn :
      ∀ input ∈ tx.inputs, input.outpoint.txid ≠ tx.txid c)
    (hUnnamed :
      ∀ id links, pool.entries.lookup id = some links →
        id ∉ pool.doomedBy tx →
          ¬links.entry.names (tx.txid c))
    (now : Int64) :
    (pool.takeIn c tx fee now).Tied txs := by
  have hFits := hAdmits.fits hSound now
  have hLeft := hSound.unlinkAll (pool.doomedBy tx)
  have hRest :=
    hTied.sheds hSound ⟨pool.doomedBy tx, rfl⟩
  have hNew := hFits.found_new hLeft
  -- what stays was in the pool and is not displaced
  have hStays :
      ∀ {id : Hash256} {links : EntryInternal},
        (pool.unlinkAll
            (pool.doomedBy tx)).entries.lookup id =
          some links →
          id ∉ pool.doomedBy tx ∧
            ∃ old, pool.entries.lookup id = some old ∧
              links.entry = old.entry := by
    intro id links hFound
    rw [hSound.linked.lookup_unlinkAll] at hFound
    split at hFound
    · cases hFound
    · rename_i hNot
      rcases Option.map_eq_some_iff.mp hFound with
        ⟨old, hOld, rfl⟩
      exact ⟨hNot, old, hOld, rfl⟩
  constructor
  · intro id links hFound
    by_cases hHere : id = (entryFor c tx fee now).wtxid
    · subst hHere
      rw [Mempool.takeIn, hNew, Option.some_inj] at hFound
      subst hFound
      exact hTx
    · rcases hFits.found_before hLeft hFound hHere with
        ⟨old, hOld, hEntry, -⟩
      rw [hEntry]
      exact hRest.offered id old hOld
  · intro id links hFound
    change Function.update
      (pool.unlinkAll (pool.doomedBy tx)).byTxid
      (tx.txid c) (some (tx.wtxid c)) _ = some id
    by_cases hHere : id = (entryFor c tx fee now).wtxid
    · subst hHere
      rw [Mempool.takeIn, hNew, Option.some_inj] at hFound
      subst hFound
      exact Function.update_self ..
    · rcases hFits.found_before hLeft hFound hHere with
        ⟨old, hOld, hEntry, -⟩
      rw [hEntry, Function.update_of_ne]
      · exact hRest.indexed id old hOld
      · intro hTxid
        rcases hStays hOld with
          ⟨hNot, first, hFirst, hSame⟩
        rw [hSame] at hTxid
        exact hNot (hTied.mem_doomedBy_of_txid hIds
          hSound hTx hFirst hTxid)
  · intro id links hFound other found hOther hNames
    by_cases hThere : other = (entryFor c tx fee now).wtxid
    · subst hThere
      rw [Mempool.takeIn, hNew, Option.some_inj] at hOther
      subst hOther
      rcases hNames with ⟨input, hInput, hTxid⟩
      have hOld : id ≠ (entryFor c tx fee now).wtxid := by
        rintro rfl
        rw [Mempool.takeIn, hNew, Option.some_inj] at hFound
        subst hFound
        exact hOwn input hInput hTxid
      rcases hFits.found_before hLeft hFound hOld with
        ⟨old, hHeld, hEntry, -⟩
      refine (hFits.resolved id).mpr ⟨input, hInput, ?_⟩
      rw [hTxid, hEntry]
      exact hRest.indexed id old hHeld
    · rcases hFits.found_before hLeft hOther hThere with
        ⟨held, hHeld, hEntry, hParents⟩
      rw [hEntry] at hNames
      rw [hParents]
      by_cases hHere : id = (entryFor c tx fee now).wtxid
      · subst hHere
        rw [Mempool.takeIn, hNew, Option.some_inj] at hFound
        subst hFound
        rcases hStays hHeld with
          ⟨hNot, first, hFirst, hSame⟩
        rw [hSame] at hNames
        exact absurd hNames
          (hUnnamed other first hFirst hNot)
      · rcases hFits.found_before hLeft hFound hHere with
          ⟨old, hOld, hAlso, -⟩
        rw [hAlso] at hNames
        exact hRest.parents id old hOld other held hHeld
          hNames

theorem Complete.takeIn
    (hIds : Utxo.IdsTellInputs c txs)
    (hSound : pool.Sound c)
    (hComplete : pool.Complete txs)
    (hTx : tx ∈ txs)
    (hAdmits :
      pool.Admits c tx spentCoins spendHeight params fee)
    (hWelcome : pool.Welcome c tx fee)
    (now : Int64) :
    (pool.takeIn c tx fee now).Complete txs := by
  have hFits := hAdmits.fits hSound now
  have hTied := hComplete.tied.takeIn hIds hSound hTx hAdmits
    hWelcome.own hWelcome.unnamed now
  have hTotal :=
    hFits.totals_insertEntry fun entry => entry.fee.toInt
  have hBound := hWelcome.fees
  refine
    { offered := hTied.offered
      indexed := hTied.indexed
      parents := hTied.parents
      fees := ?_ }
  unfold exactFees at hBound ⊢
  change Table.total _ (pool.takeIn c tx fee now).entries =
    fee.toInt + _ at hTotal
  rw [hTotal]
  omega

end Arrivals

------------------------------------------------------------
-- Orderly Runs
------------------------------------------------------------

/- The transactions that a run offers. -/
def offered
    (calls : List PoolCall) : Set Transaction :=
  {tx | ∃ call ∈ calls, call.offers = some tx}

/- Every call is orderly in the state that it finds. -/
def OrderlyRun
    (c : Crypto)
    (params : ChainParams)
    (calls : List PoolCall) : Prop :=
  ∀ before call after, calls = before ++ call :: after →
    (run c params before).Orderly c params call

theorem OrderlyRun.nil
    {c : Crypto}
    {params : ChainParams} :
    OrderlyRun c params [] := by
  intro before call after hSplit
  cases before <;> cases hSplit

theorem OrderlyRun.append
    {c : Crypto}
    {params : ChainParams}
    {calls : List PoolCall}
    {call : PoolCall}
    (hBefore : OrderlyRun c params calls)
    (hCall : (run c params calls).Orderly c params call) :
    OrderlyRun c params (calls ++ [call]) := by
  intro before other after hSplit
  rcases Search.concat_split hSplit with
    ⟨rfl, rfl⟩ | ⟨rest, hRest⟩
  · exact hCall
  · exact hBefore before other rest hRest

theorem inputs_le_weight
    (tx : Transaction) :
    tx.inputs.length ≤ tx.weight := by
  have hLeast :
      ∀ input : TxInput, 1 ≤ input.serialize.length := by
    intro input
    simp only [TxInput.serialize, writeU32,
      List.length_append, length_littleEndian]
    omega
  have hInputs := length_flatMap_ge hLeast tx.inputs
  have hBase :
      (tx.inputs.flatMap TxInput.serialize).length ≤
        tx.serializeWithoutWitnesses.length := by
    simp only [Transaction.serializeWithoutWitnesses,
      writeList, List.length_append]
    omega
  have hWeight :
      tx.weight =
        tx.serializeWithoutWitnesses.length * 4 +
          (tx.serialize.length -
            tx.serializeWithoutWitnesses.length) :=
    rfl
  omega

section Runs

variable {c : Crypto} {params : ChainParams}
variable {txs : Set Transaction}

theorem perform_complete
    (hIds : Utxo.IdsTellInputs c txs)
    {pool : Mempool}
    (hSound : pool.Sound c)
    (hComplete : pool.Complete txs)
    {call : PoolCall}
    (hOrderly : pool.Orderly c params call)
    (hOffers :
      ∀ tx, call.offers = some tx →
        tx.weight ≤ maxMempoolWeight → tx ∈ txs) :
    (pool.perform c params call).Complete txs := by
  rcases pool.perform_cases c params call with
    hSheds | ⟨tx, spentCoins, spendHeight, fee, now, hTx,
      hForm, hAdmits, hCall⟩
  · exact hComplete.sheds hSound hSheds
  · have hOffer :
        pool.OrderlyOffer c params tx spentCoins
          spendHeight := by
      rcases hForm with rfl | ⟨base, rfl, hResolved⟩
      · exact hOrderly
      · exact hOrderly spentCoins hResolved
    have hMember := hOffers tx hTx hAdmits.light
    rw [hCall]
    refine Complete.sheds (hAdmits.sound_takeIn hSound now) ?_
      (capped_sheds _)
    exact hComplete.takeIn hIds hSound hMember hAdmits
      (hOffer fee hAdmits.inputs) now

theorem run_complete
    (hIds : Utxo.IdsTellInputs c txs)
    (calls : List PoolCall)
    (hOffers :
      ∀ tx ∈ offered calls,
        tx.weight ≤ maxMempoolWeight → tx ∈ txs)
    (hOrderly : OrderlyRun c params calls) :
    (run c params calls).Complete txs := by
  induction calls using List.reverseRecOn with
  | nil =>
      have hAbsent :
          ∀ {id : Hash256} {links : EntryInternal},
            empty.entries.lookup id ≠ some links := by
        intro id links
        rw [show empty.entries.lookup id = none from
          AList.lookup_empty id]
        exact nofun
      exact
        { offered := fun _ _ hFound => absurd hFound hAbsent
          indexed := fun _ _ hFound => absurd hFound hAbsent
          parents := fun _ _ hFound => absurd hFound hAbsent
          fees := by
            change (0 : Int) < 2 ^ 63
            decide }
  | append_singleton calls call ih =>
      have hBefore : (run c params calls).Complete txs := by
        apply ih
        · rintro tx ⟨other, hOther, hTx⟩
          exact hOffers tx
            ⟨other, List.mem_append_left _ hOther, hTx⟩
        · intro before other after hSplit
          apply hOrderly before other (after ++ [call])
          rw [hSplit]
          simp
      rw [run, List.foldl_append]
      refine perform_complete hIds (run_sound c params calls).1
        hBefore (hOrderly calls call [] rfl) ?_
      intro tx hTx
      exact hOffers tx
        ⟨call, List.mem_append_right _ (List.mem_singleton_self
          _), hTx⟩

end Runs

/-
  A run that never lets in a transaction some remaining entry
  names, nor more fees than can be counted, leaves an exact
  pool behind every call.
-/
theorem exact_of_orderly
    (c : Crypto)
    (params : ChainParams)
    (calls : List PoolCall)
    (hTxids :
      Set.InjOn c.doubleSha256
        (Transaction.serializeWithoutWitnesses ''
          offered calls))
    (hOrderly : OrderlyRun c params calls) :
    ∀ reached, reached <+: calls →
      (run c params reached).Exact c := by
  rintro reached ⟨rest, rfl⟩
  have hIds :
      Utxo.IdsTellInputs c
        {tx | tx ∈ offered (reached ++ rest) ∧
          tx.weight ≤ maxMempoolWeight} := by
    apply Utxo.idsTellInputs
    · apply hTxids.mono
      exact Set.image_mono fun tx hTx => hTx.1
    · intro tx hTx
      have hFew := inputs_le_weight tx
      have hLight := hTx.2
      unfold maxMempoolWeight at hLight
      omega
  rcases run_sound c params reached with ⟨hSound, hLight⟩
  refine Complete.exact hSound hLight
    (run_complete hIds reached ?_ ?_)
  · rintro tx ⟨call, hCall, hTx⟩ hWeight
    exact ⟨⟨call, List.mem_append_left _ hCall, hTx⟩,
      hWeight⟩
  · intro before call after hSplit
    apply hOrderly before call (after ++ rest)
    rw [hSplit]
    simp

end Mempool

------------------------------------------------------------
-- A Parent That Comes Back
------------------------------------------------------------

namespace Sample

/- A lock of a version that has no rules yet. -/
def openLock : Lock :=
  { version := 2
    program := [] }

/- A witness whose condition has no rules yet. -/
def openWitness : Witness :=
  { condition := { version := 2, threshold := 0, keys := [] }
    signatures := [] }

/- One input and one output. -/
def payment
    (outpoint : OutPoint)
    (amount : Int64) : Transaction :=
  { version := 1
    inputs := [{ outpoint := outpoint, sequence := 0 }]
    outputs := [{ amount := amount, lock := openLock }]
    locktime := 0
    witnesses := [openWitness]
    coinbaseData := [] }

/- The outpoint of the only coin. -/
def confirmed : OutPoint :=
  { txid := Bytes32.zero
    index := 0 }

/- Spends the coin. -/
def parentPayment : Transaction :=
  payment confirmed 20000

/- Spends the payment. -/
def childPayment : Transaction :=
  payment
    { txid := parentPayment.txid Crypto.reference
      index := 0 }
    10000

/- The one coin of the chain. -/
def oneCoin : Utxo :=
  fun outpoint =>
    if outpoint = confirmed then
      some
        { output := { amount := 30000, lock := openLock }
          height := 0
          isCoinbase := false }
    else
      none

/- Confirms the payment. -/
def parentBlock : Block :=
  { header :=
      { version := 1
        height := 1
        prevBlock := Bytes32.zero
        merkleRoot := Bytes32.zero
        timestamp := 0
        targetBits := 0
        nonce := 0 }
    transactions := [parentPayment] }

/- The parent is mined, which leaves the child alone. -/
def parentMined : List PoolCall :=
  [.accept parentPayment oneCoin 1 0,
    .accept childPayment oneCoin 1 0,
    .removeForBlock parentBlock]

/- Then the block is reversed, and the parent returns. -/
def parentBack : List PoolCall :=
  parentMined ++ [.accept parentPayment oneCoin 1 0]

theorem parentBack_offers
    {tx : Transaction}
    (hTx : tx ∈ Mempool.offered parentBack) :
    tx = parentPayment ∨ tx = childPayment := by
  rcases hTx with ⟨call, hCall, hOffers⟩
  simp only [parentBack, parentMined, List.mem_append,
    List.mem_cons, List.not_mem_nil, or_false] at hCall
  rcases hCall with (rfl | rfl | rfl) | rfl
  · cases hOffers
    exact .inl rfl
  · cases hOffers
    exact .inr rfl
  · cases hOffers
  · cases hOffers
    exact .inl rfl

/- Equal hashes come from equal bytes, of two transactions. -/
theorem injOn_image_pair
    {write : Transaction → ByteVec}
    {first second : Transaction}
    {txs : Set Transaction}
    (hTxs : ∀ tx ∈ txs, tx = first ∨ tx = second)
    (hNe :
      Crypto.reference.doubleSha256 (write first) ≠
        Crypto.reference.doubleSha256 (write second)) :
    Set.InjOn Crypto.reference.doubleSha256
      (write '' txs) := by
  rintro _ ⟨tx, hTx, rfl⟩ _ ⟨other, hOther, rfl⟩ hSame
  rcases hTxs tx hTx with rfl | rfl
  · rcases hTxs other hOther with rfl | rfl
    · rfl
    · exact absurd hSame hNe
  · rcases hTxs other hOther with rfl | rfl
    · exact absurd hSame.symm hNe
    · rfl

theorem parentBack_txids :
    Set.InjOn Crypto.reference.doubleSha256
      (Transaction.serializeWithoutWitnesses ''
        Mempool.offered parentBack) :=
  injOn_image_pair (fun _ => parentBack_offers)
    (by decide +kernel)

/- The child stays without a link to its parent. -/
theorem parentBack_not_exact :
    Set.InjOn Crypto.reference.doubleSha256
        (Transaction.serializeWithoutWitnesses ''
          Mempool.offered parentBack) ∧
      Set.InjOn Crypto.reference.doubleSha256
        (Transaction.serialize ''
          Mempool.offered parentBack) ∧
      ¬(Mempool.run Crypto.reference regtestParams
        parentBack).Exact Crypto.reference := by
  refine ⟨parentBack_txids,
    injOn_image_pair (fun _ => parentBack_offers)
      (by decide +kernel), ?_⟩
  intro hExact
  have hParent :
      ((Mempool.run Crypto.reference regtestParams
          parentBack).entries.lookup
            (parentPayment.wtxid Crypto.reference)).map
          (fun links => (links.entry.txid, links.children)) =
        some
          (parentPayment.txid Crypto.reference, []) := by
    decide +kernel
  have hChild :
      ((Mempool.run Crypto.reference regtestParams
          parentBack).entries.lookup
            (childPayment.wtxid Crypto.reference)).map
          (fun links => links.entry.tx.inputs) =
        some childPayment.inputs := by
    decide +kernel
  rcases Option.map_eq_some_iff.mp hParent with
    ⟨parent, hFound, hEntry⟩
  rcases Option.map_eq_some_iff.mp hChild with
    ⟨child, hOther, hInputs⟩
  rw [Prod.mk.injEq] at hEntry
  have hLink :=
    (hExact.links _ parent hFound _ child hOther).1
  rw [hEntry.2, hEntry.1] at hLink
  refine (List.not_mem_nil (hLink.mpr ?_)).elim
  unfold Entry.names
  rw [hInputs]
  exact ⟨_, List.mem_singleton_self _, rfl⟩

/- A pool with the payment. -/
def parentIn : Mempool :=
  Mempool.run Crypto.reference regtestParams
    [.accept parentPayment oneCoin 1 0]

/- Nobody was waiting for the parent or for the child. -/
theorem parentMined_orderly :
    Mempool.OrderlyRun Crypto.reference regtestParams
      parentMined := by
  have hFees :
      ∀ {tx : Transaction} {spent : List Coin} {fee : Int64},
        checkTransactionInputs Crypto.reference tx spent 1
            regtestParams = .ok fee →
          fee.toInt ≤ 83999999932170000 :=
    fun hInputs =>
      ((isValidAmount_iff _).mp
        (transactionFee_valid
          (checkTransactionInputs_fee hInputs))).2
  have hFirst :
      Mempool.OrderlyRun Crypto.reference regtestParams
        [.accept parentPayment oneCoin 1 0] := by
    refine Mempool.OrderlyRun.append .nil ?_
    intro spent _ fee hFee
    refine ⟨by decide +kernel, ?_, ?_⟩
    · intro id links hFound
      rw [show (Mempool.run Crypto.reference regtestParams
        []).entries.lookup id = none from
          AList.lookup_empty id] at hFound
      cases hFound
    · have hNone :
          (Mempool.empty.unlinkAll
            (Mempool.empty.doomedBy
              parentPayment)).exactFees = 0 := by
        rfl
      have hBound := hFees hFee
      change (Mempool.empty.unlinkAll
        (Mempool.empty.doomedBy parentPayment)).exactFees +
          fee.toInt < 2 ^ 63
      rw [hNone]
      omega
  have hSecond :
      Mempool.OrderlyRun Crypto.reference regtestParams
        ([.accept parentPayment oneCoin 1 0] ++
          [.accept childPayment oneCoin 1 0]) := by
    refine Mempool.OrderlyRun.append hFirst ?_
    intro spent _ fee hFee
    refine ⟨by decide +kernel, ?_, ?_⟩
    · intro id links hFound _
      have hNames :
          ∀ entry ∈ parentIn.entries.entries,
            ¬∃ input ∈ entry.2.entry.tx.inputs,
              input.outpoint.txid =
                childPayment.txid Crypto.reference := by
        decide +kernel
      exact hNames _ (AList.mem_lookup_iff.mp hFound)
    · have hOne :
          (parentIn.unlinkAll
            (parentIn.doomedBy childPayment)).exactFees =
            10000 := by
        decide +kernel
      have hBound := hFees hFee
      change (parentIn.unlinkAll
        (parentIn.doomedBy childPayment)).exactFees +
          fee.toInt < 2 ^ 63
      rw [hOne]
      omega
  exact Mempool.OrderlyRun.append hSecond trivial

theorem parentMined_exact :
    (Mempool.run Crypto.reference regtestParams
      parentMined).Exact Crypto.reference := by
  apply Mempool.exact_of_orderly Crypto.reference
    regtestParams parentMined _ parentMined_orderly
    parentMined List.prefix_rfl
  apply parentBack_txids.mono
  rintro _ ⟨tx, ⟨call, hCall, hTx⟩, rfl⟩
  exact ⟨tx, ⟨call, List.mem_append_left _ hCall, hTx⟩, rfl⟩

end Sample

end Amarian
