import Amarian.Mempool.Exactness

/-
  Pools of transactions that have nothing to do with each
  other: each arrival is let in, and one that outbids a
  single entry takes its place.

  Key definitions include:
    * `Mempool.Holds`
    * `Mempool.Apart`
    * `Mempool.Standing`

  Key theorems include:
    * `Mempool.Holds.accept`
    * `Mempool.Holds.admits_over`
-/

------------------------------------------------------------
-- Pools Without Links
------------------------------------------------------------

namespace Amarian

namespace Mempool

/- An entry with no relatives. -/
def alone
    (c : Crypto)
    (now : Int64)
    (arrival : Transaction × Int64) : EntryInternal :=
  { entry := entryFor c arrival.1 arrival.2 now
    children := []
    parents := [] }

/- The pool holds the given transactions and fees, unlinked. -/
structure Holds
    (c : Crypto)
    (now : Int64)
    (arrivals : List (Transaction × Int64))
    (pool : Mempool) : Prop where
  sound : pool.Sound c
  entries :
    ∀ id links, pool.entries.lookup id = some links ↔
      ∃ arrival ∈ arrivals,
        arrival.1.wtxid c = id ∧ alone c now arrival = links
  weight :
    pool.totalWeight =
      (arrivals.map fun arrival => arrival.1.weight).sum
  fees :
    pool.totalFees =
      Int64.ofInt
        (arrivals.map fun arrival => arrival.2.toInt).sum

/- The second transaction does not touch the first. -/
structure Unrelated
    (c : Crypto)
    (other tx : Transaction) : Prop where
  ids : other.wtxid c ≠ tx.wtxid c
  inputs :
    ∀ input ∈ tx.inputs,
      input.outpoint ∉ other.inputs.map TxInput.outpoint
  parents :
    ∀ input ∈ tx.inputs, input.outpoint.txid ≠ other.txid c

/- The transaction touches none of the arrivals. -/
def Apart
    (c : Crypto)
    (arrivals : List (Transaction × Int64))
    (tx : Transaction) : Prop :=
  ∀ arrival ∈ arrivals, Unrelated c arrival.1 tx

/- A transaction that is right on its own. -/
structure Standing
    (c : Crypto)
    (params : ChainParams)
    (tx : Transaction)
    (spentCoins : List Coin)
    (spendHeight : UInt32)
    (fee : Int64) : Prop where
  spending : tx.isCoinbase = false
  shape : checkTransaction tx params = .ok ()
  inputs :
    checkTransactionInputs c tx spentCoins spendHeight
      params = .ok fee
  heavy : tx.weight ≠ 0
  light : tx.weight ≤ maxMempoolWeight
  relayed : ¬fee < Int64.ofNat tx.weight * minRelayFeerate

theorem Holds.empty
    (c : Crypto)
    (now : Int64) :
    Holds c now [] Mempool.empty where
  sound := Sound.empty c
  entries := by
    intro id links
    rw [show Mempool.empty.entries.lookup id = none from
      AList.lookup_empty id]
    simp
  weight := rfl
  fees := rfl

section Unlinked

variable {c : Crypto} {params : ChainParams} {now : Int64}
variable {arrivals : List (Transaction × Int64)}
variable {pool : Mempool} {tx : Transaction}
variable {spentCoins : List Coin} {spendHeight : UInt32}
variable {fee : Int64}

theorem Holds.found
    (hHolds : Holds c now arrivals pool)
    {arrival : Transaction × Int64}
    (hArrival : arrival ∈ arrivals) :
    pool.entries.lookup (arrival.1.wtxid c) =
      some (alone c now arrival) :=
  (hHolds.entries _ _).mpr ⟨arrival, hArrival, rfl, rfl⟩

/- Nobody is linked to anybody. -/
theorem Holds.reached
    {side : EntryInternal → List Hash256}
    (hSide :
      ∀ arrival, side (alone c now arrival) = [])
    (hHolds : Holds c now arrivals pool)
    {arrival : Transaction × Int64}
    (hArrival : arrival ∈ arrivals) :
    pool.reached side (arrival.1.wtxid c) =
      [arrival.1.wtxid c] :=
  reached_eq_singleton (hHolds.found hArrival)
    (hSide arrival)

theorem Holds.descendantsOf
    (hHolds : Holds c now arrivals pool)
    {arrival : Transaction × Int64}
    (hArrival : arrival ∈ arrivals) :
    pool.descendantsOf (arrival.1.wtxid c) =
      [arrival.1.wtxid c] :=
  hHolds.reached (fun _ => rfl) hArrival

theorem Holds.ancestorsOf
    (hHolds : Holds c now arrivals pool)
    {arrival : Transaction × Int64}
    (hArrival : arrival ∈ arrivals) :
    pool.ancestorsOf (arrival.1.wtxid c) =
      [arrival.1.wtxid c] :=
  hHolds.reached (fun _ => rfl) hArrival

theorem Holds.descendantTotals
    (hHolds : Holds c now arrivals pool)
    {arrival : Transaction × Int64}
    (hArrival : arrival ∈ arrivals) :
    pool.descendantTotals (arrival.1.wtxid c) =
        (arrival.2, arrival.1.weight) ∧
      pool.totalsOf [arrival.1.wtxid c] =
        (arrival.2, arrival.1.weight) := by
  have hFound :
      pool.find (arrival.1.wtxid c) =
        some (entryFor c arrival.1 arrival.2 now) := by
    rw [find, hHolds.found hArrival]
    rfl
  have hTotals :
      pool.totalsOf [arrival.1.wtxid c] =
        (arrival.2, arrival.1.weight) := by
    rw [totalsOf, List.foldl_cons, List.foldl_nil, hFound]
    change (0 + arrival.2, 0 + arrival.1.weight) = _
    rw [Int64.zero_add, Nat.zero_add]
  refine ⟨?_, hTotals⟩
  rw [Mempool.descendantTotals, hHolds.descendantsOf hArrival,
    hTotals]

theorem Holds.candidate
    (hHolds : Holds c now arrivals pool)
    {arrival : Transaction × Int64}
    (hArrival : arrival ∈ arrivals) :
    pool.candidate (arrival.1.wtxid c) =
      { id := arrival.1.wtxid c
        fee := arrival.2
        weight := arrival.1.weight } := by
  rw [Mempool.candidate,
    (hHolds.descendantTotals hArrival).1]

/- What pays least for its weight is the first to go. -/
theorem Holds.worst
    (hHolds : Holds c now (arrivals ++ [(tx, fee)]) pool)
    (hRates :
      ∀ arrival ∈ arrivals,
        compareFeerate fee tx.weight arrival.2
            arrival.1.weight = .lt ∧
          compareFeerate arrival.2 arrival.1.weight fee
            tx.weight = .gt) :
    pool.worst.map Candidate.id = some (tx.wtxid c) := by
  have hLast : (tx, fee) ∈ arrivals ++ [(tx, fee)] :=
    List.mem_append_right _ (List.mem_singleton_self _)
  have hFound := hHolds.found hLast
  have hWorst := worst_of_cheapest
    (contains_iff.mpr ⟨_, hFound⟩) (by
      intro other hOther hNe
      rcases contains_iff.mp hOther with ⟨links, hThere⟩
      rcases (hHolds.entries other links).mp hThere with
        ⟨arrival, hArrival, rfl, -⟩
      have hOld : arrival ∈ arrivals := by
        rcases List.mem_append.mp hArrival with hOld | hHere
        · exact hOld
        · rw [List.mem_singleton.mp hHere] at hNe
          exact absurd rfl hNe
      rcases hRates arrival hOld with ⟨hLess, hMore⟩
      rw [hHolds.candidate hArrival, hHolds.candidate hLast]
      unfold Candidate.isWorse
      rw [hLess, hMore]
      exact ⟨rfl, rfl⟩)
  rw [hWorst]
  rfl

theorem Holds.parentsFor
    (hHolds : Holds c now arrivals pool)
    (hParents :
      ∀ arrival ∈ arrivals, ∀ input ∈ tx.inputs,
        input.outpoint.txid ≠ arrival.1.txid c) :
    pool.parentsFor tx = [] := by
  rw [List.eq_nil_iff_forall_not_mem]
  intro id hId
  rcases mem_parentsFor.mp hId with
    ⟨input, hInput, hIndexed⟩
  rcases hHolds.sound.indexed _ _ hIndexed with
    ⟨links, hFound, hTxid⟩
  rcases (hHolds.entries id links).mp hFound with
    ⟨arrival, hArrival, -, rfl⟩
  exact hParents arrival hArrival input hInput hTxid.symm

theorem Holds.doomedBy
    (hHolds : Holds c now arrivals pool)
    (hInputs :
      ∀ arrival ∈ arrivals, ∀ input ∈ tx.inputs,
        input.outpoint ∉
          arrival.1.inputs.map TxInput.outpoint) :
    pool.doomedBy tx = [] := by
  rw [List.eq_nil_iff_forall_not_mem]
  intro id hId
  rcases (hHolds.sound.mem_doomedBy_iff id).mp hId with
    ⟨conflict, ⟨links, hFound, input, hInput, hSpends⟩, -⟩
  rcases (hHolds.entries conflict links).mp hFound with
    ⟨arrival, hArrival, -, rfl⟩
  exact hInputs arrival hArrival input hInput hSpends

/- No parents, no ancestors. -/
theorem ancestorsFor_of_parentsFor
    (hParents : pool.parentsFor tx = []) :
    pool.ancestorsFor tx = [] := by
  rw [List.eq_nil_iff_forall_not_mem]
  intro id hId
  rcases (mem_ancestorsFor.mp hId).1 with ⟨parent, hParent, -⟩
  rw [hParents] at hParent
  cases hParent

theorem Holds.not_contains
    (hHolds : Holds c now arrivals pool)
    (hIds :
      ∀ arrival ∈ arrivals,
        arrival.1.wtxid c ≠ tx.wtxid c) :
    pool.contains (tx.wtxid c) = false := by
  rw [← Bool.not_eq_true, contains_iff]
  rintro ⟨links, hFound⟩
  rcases (hHolds.entries _ links).mp hFound with
    ⟨arrival, hArrival, hSame, -⟩
  exact hIds arrival hArrival hSame

theorem Holds.admits
    (hHolds : Holds c now arrivals pool)
    (hApart : Apart c arrivals tx)
    (hStanding :
      Standing c params tx spentCoins spendHeight fee) :
    pool.Admits c tx spentCoins spendHeight params fee := by
  have hDoomed := hHolds.doomedBy
    fun arrival hArrival => (hApart arrival hArrival).inputs
  have hParents := hHolds.parentsFor
    fun arrival hArrival => (hApart arrival hArrival).parents
  have hAncestors := ancestorsFor_of_parentsFor hParents
  constructor
  · exact hStanding.spending
  · exact hHolds.not_contains
      fun arrival hArrival => (hApart arrival hArrival).ids
  · exact hStanding.shape
  · exact hStanding.inputs
  · exact hStanding.heavy
  · exact hStanding.light
  · exact hStanding.relayed
  · rw [hDoomed]
    exact Nat.zero_le _
  · exact fun hSome => absurd hDoomed hSome
  · rw [hParents]
    exact nofun
  · rw [hAncestors]
    exact Nat.zero_le _
  · rw [hAncestors]
    exact nofun

/- What an arrival without parents adds to the pool. -/
theorem Holds.insertEntry
    (hHolds : Holds c now arrivals pool)
    (hFits : pool.Fits c (entryFor c tx fee now) []) :
    Holds c now (arrivals ++ [(tx, fee)])
      (pool.insertEntry (entryFor c tx fee now) []) where
  sound := hHolds.sound.insertEntry hFits
  entries := by
    intro id links
    have hWtxid : (entryFor c tx fee now).wtxid =
        tx.wtxid c :=
      rfl
    rw [hFits.lookup_insertEntry hHolds.sound, hWtxid]
    by_cases hHere : id = tx.wtxid c
    · have hFresh : pool.entries.lookup (tx.wtxid c) = none :=
        hFits.fresh
      have hNot :
          ∀ arrival ∈ arrivals,
            arrival.1.wtxid c ≠ tx.wtxid c := by
        intro arrival hArrival hSame
        have hFound := hHolds.found hArrival
        rw [hSame, hFresh] at hFound
        cases hFound
      subst hHere
      rw [if_pos rfl, Option.some_inj]
      constructor
      · intro hLinks
        exact ⟨(tx, fee), List.mem_append_right _
          (List.mem_singleton_self _), rfl, hLinks⟩
      · rintro ⟨arrival, hArrival, hSame, rfl⟩
        rcases List.mem_append.mp hArrival with hOld | hNew
        · exact absurd hSame (hNot arrival hOld)
        · rw [List.mem_singleton] at hNew
          rw [hNew]
          rfl
    · rw [if_neg hHere, if_neg List.not_mem_nil,
        hHolds.entries]
      constructor
      · rintro ⟨arrival, hArrival, hSame, hLinks⟩
        exact ⟨arrival, List.mem_append_left _ hArrival,
          hSame, hLinks⟩
      · rintro ⟨arrival, hArrival, hSame, hLinks⟩
        rcases List.mem_append.mp hArrival with hOld | hNew
        · exact ⟨arrival, hOld, hSame, hLinks⟩
        · rw [List.mem_singleton] at hNew
          rw [hNew] at hSame
          exact absurd hSame.symm hHere
  weight := by
    rw [List.map_append, List.sum_append, ← hHolds.weight]
    rfl
  fees := by
    rw [List.map_append, List.sum_append, List.map_singleton,
      List.sum_singleton, Int64.ofInt_add,
      Int64.ofInt_toInt, ← hHolds.fees]
    rfl

theorem takeIn_of_apart
    (hDoomed : pool.doomedBy tx = [])
    (hParents : pool.parentsFor tx = []) :
    pool.takeIn c tx fee now =
      pool.insertEntry (entryFor c tx fee now) [] := by
  rw [takeIn, hDoomed, hParents]
  rfl

/- A transaction that stands alone joins the others. -/
theorem Holds.takeIn_apart
    (hHolds : Holds c now arrivals pool)
    (hApart : Apart c arrivals tx)
    (hStanding :
      Standing c params tx spentCoins spendHeight fee) :
    Holds c now (arrivals ++ [(tx, fee)])
      (pool.takeIn c tx fee now) := by
  have hAdmits := hHolds.admits hApart hStanding
  have hDoomed := hHolds.doomedBy
    fun arrival hArrival => (hApart arrival hArrival).inputs
  have hParents := hHolds.parentsFor
    fun arrival hArrival => (hApart arrival hArrival).parents
  have hFits := hAdmits.fits hHolds.sound now
  rw [hDoomed, hParents] at hFits
  rw [takeIn_of_apart hDoomed hParents]
  exact hHolds.insertEntry hFits

/- A transaction that stands alone is let in. -/
theorem Holds.accept
    (hHolds : Holds c now arrivals pool)
    (hApart : Apart c arrivals tx)
    (hStanding :
      Standing c params tx spentCoins spendHeight fee)
    (hRoom :
      pool.totalWeight + tx.weight ≤ maxMempoolWeight)
    {base : Utxo}
    (hResolved :
      pool.resolveInputs tx base spendHeight =
        some spentCoins) :
    ∃ entry after,
      pool.accept c tx base spendHeight now params =
          (.ok entry, after) ∧
        Holds c now (arrivals ++ [(tx, fee)]) after := by
  have hAdmits := hHolds.admits hApart hStanding
  have hDoomed := hHolds.doomedBy
    fun arrival hArrival => (hApart arrival hArrival).inputs
  have hSpace :
      (pool.unlinkAll (pool.doomedBy tx)).totalWeight +
        tx.weight ≤ maxMempoolWeight := by
    rw [hDoomed]
    exact hRoom
  refine ⟨entryFor c tx fee now, _, ?_,
    hHolds.takeIn_apart hApart hStanding⟩
  rw [hAdmits.accept hResolved,
    hAdmits.settle_takeIn hHolds.sound hSpace]

/- One call for each arrival. -/
def entering
    (base : Utxo)
    (spendHeight : UInt32)
    (now : Int64)
    (arrivals : List (Transaction × Int64)) : List PoolCall :=
  arrivals.map fun arrival =>
    .accept arrival.1 base spendHeight now

/- Unrelated transactions are let in one after the other. -/
theorem holds_run
    (c : Crypto)
    (params : ChainParams)
    (base : Utxo)
    (spendHeight : UInt32)
    (now : Int64)
    (arrivals : List (Transaction × Int64))
    (hApart :
      arrivals.Pairwise fun first second =>
        Unrelated c first.1 second.1)
    (hStanding :
      ∀ arrival ∈ arrivals, ∃ spentCoins,
        (∀ pool : Mempool,
          pool.resolveInputs arrival.1 base spendHeight =
            some spentCoins) ∧
        Standing c params arrival.1 spentCoins spendHeight
          arrival.2)
    (hRoom :
      (arrivals.map fun arrival => arrival.1.weight).sum ≤
        maxMempoolWeight) :
    Holds c now arrivals
      (run c params
        (entering base spendHeight now arrivals)) := by
  induction arrivals using List.reverseRecOn with
  | nil => exact Holds.empty c now
  | append_singleton arrivals arrival ih =>
      rw [List.pairwise_append] at hApart
      rw [List.map_append, List.sum_append] at hRoom
      have hBefore := ih hApart.1
        (fun other hOther =>
          hStanding other (List.mem_append_left _ hOther))
        (by omega)
      rcases hStanding arrival (List.mem_append_right _
        (List.mem_singleton_self _)) with
        ⟨spent, hResolved, hAlone⟩
      have hSpace := hBefore.weight
      rw [List.map_singleton, List.sum_singleton,
        ← hSpace] at hRoom
      rcases hBefore.accept
        (fun other hOther =>
          hApart.2.2 other hOther arrival
            (List.mem_singleton_self _))
        hAlone hRoom (hResolved _) with
        ⟨entry, after, hCall, hAfter⟩
      rw [run, entering, List.map_append, List.foldl_append]
      change Holds c now _
        (Mempool.accept c _ arrival.1 base spendHeight now
          params).2
      change Mempool.accept c
        (List.foldl (perform c params) Mempool.empty
          (arrivals.map _)) arrival.1 base spendHeight now
          params = _ at hCall
      rw [hCall]
      exact hAfter

------------------------------------------------------------
-- Taking The Place Of Another
------------------------------------------------------------

variable {old : Transaction} {oldFee : Int64}

theorem Holds.found_last
    (hHolds :
      Holds c now (arrivals ++ [(old, oldFee)]) pool) :
    pool.entries.lookup (old.wtxid c) =
        some (alone c now (old, oldFee)) ∧
      pool.descendantsOf (old.wtxid c) = [old.wtxid c] ∧
      pool.totalsOf [old.wtxid c] =
        (oldFee, old.weight) := by
  have hLast :
      (old, oldFee) ∈ arrivals ++ [(old, oldFee)] :=
    List.mem_append_right _ (List.mem_singleton_self _)
  have hFound := hHolds.found hLast
  have hPackage := hHolds.descendantsOf hLast
  have hTotals := (hHolds.descendantTotals hLast).2
  exact ⟨hFound, hPackage, hTotals⟩

theorem Holds.unlink
    (hHolds :
      Holds c now (arrivals ++ [(old, oldFee)]) pool)
    (hIds :
      ∀ arrival ∈ arrivals,
        arrival.1.wtxid c ≠ old.wtxid c) :
    Holds c now arrivals (pool.unlink (old.wtxid c)) := by
  have hOld := hHolds.found_last.1
  have hDrop :
      ∀ arrival,
        dropAll [old.wtxid c] (alone c now arrival) =
          alone c now arrival :=
    fun _ => rfl
  constructor
  · exact hHolds.sound.unlink _
  · intro id links
    rw [hHolds.sound.linked.lookup_unlink_eq_some]
    constructor
    · rintro ⟨hNe, links, hFound, rfl⟩
      rcases (hHolds.entries id links).mp hFound with
        ⟨arrival, hArrival, hSame, rfl⟩
      rcases List.mem_append.mp hArrival with hHere | hLast
      · exact ⟨arrival, hHere, hSame, (hDrop arrival).symm⟩
      · rw [List.mem_singleton] at hLast
        rw [hLast] at hSame
        exact absurd hSame.symm hNe
    · rintro ⟨arrival, hArrival, rfl, rfl⟩
      exact ⟨hIds arrival hArrival, _,
        hHolds.found (List.mem_append_left _ hArrival),
        hDrop arrival⟩
  · have hWeight := hHolds.weight
    rw [List.map_append, List.sum_append, List.map_singleton,
      List.sum_singleton] at hWeight
    have hLeft :
        (pool.unlink (old.wtxid c)).totalWeight =
          pool.totalWeight - old.weight := by
      unfold Mempool.unlink
      rw [hOld]
      rfl
    rw [hLeft, hWeight, Nat.add_sub_cancel]
  · have hFees := hHolds.fees
    rw [List.map_append, List.sum_append, List.map_singleton,
      List.sum_singleton, Int64.ofInt_add,
      Int64.ofInt_toInt] at hFees
    have hLeft :
        (pool.unlink (old.wtxid c)).totalFees =
          pool.totalFees - oldFee := by
      unfold Mempool.unlink
      rw [hOld]
      rfl
    rw [hLeft, hFees, Int64.add_sub_cancel]

/- The one entry that spends the same outpoints goes. -/
theorem Holds.doomedBy_one
    (hHolds :
      Holds c now (arrivals ++ [(old, oldFee)]) pool)
    (hApart : Apart c arrivals tx)
    (hSame : tx.inputs = old.inputs)
    (hInputs : tx.inputs ≠ []) :
    pool.directConflicts tx = [old.wtxid c] ∧
      pool.doomedBy tx = [old.wtxid c] := by
  have hDirect : pool.directConflicts tx = [old.wtxid c] := by
    have hNodup : (pool.directConflicts tx).Nodup :=
      List.nodup_dedup _
    rw [← List.perm_singleton,
      List.perm_ext_iff_of_nodup hNodup
        (List.nodup_singleton _)]
    intro id
    rw [hHolds.sound.mem_directConflicts_iff,
      List.mem_singleton]
    constructor
    · rintro ⟨links, hFound, input, hInput, hSpends⟩
      rcases (hHolds.entries id links).mp hFound with
        ⟨arrival, hArrival, rfl, rfl⟩
      rcases List.mem_append.mp hArrival with hHere | hThere
      · exact absurd hSpends
          ((hApart arrival hHere).inputs input hInput)
      · rw [List.mem_singleton.mp hThere]
    · rintro rfl
      rcases List.exists_mem_of_ne_nil _ hInputs with
        ⟨input, hInput⟩
      refine ⟨_, hHolds.found_last.1, input, hInput, ?_⟩
      rw [hSame] at hInput
      exact List.mem_map_of_mem hInput
  refine ⟨hDirect, ?_⟩
  rw [Mempool.doomedBy, hDirect, List.flatMap_singleton,
    hHolds.found_last.2.1]
  exact (List.nodup_singleton _).dedup

/- An arrival that outbids the one entry it conflicts with. -/
theorem Holds.admits_over
    (hHolds :
      Holds c now (arrivals ++ [(old, oldFee)]) pool)
    (hApart : Apart c arrivals tx)
    (hStanding :
      Standing c params tx spentCoins spendHeight fee)
    (hSame : tx.inputs = old.inputs)
    (hId : old.wtxid c ≠ tx.wtxid c)
    (hParent :
      ∀ input ∈ tx.inputs, input.outpoint.txid ≠ old.txid c)
    (hRate :
      compareFeerate fee tx.weight oldFee old.weight = .gt)
    (hMore : oldFee < fee) :
    pool.Admits c tx spentCoins spendHeight params fee := by
  have hInputs :=
    (checkTransaction_eq_ok.mp hStanding.shape).1
  rcases hHolds.doomedBy_one hApart hSame hInputs with
    ⟨hDirect, hDoomed⟩
  have hParents : pool.parentsFor tx = [] := by
    apply hHolds.parentsFor
    intro arrival hArrival input hInput
    rcases List.mem_append.mp hArrival with hHere | hThere
    · exact (hApart arrival hHere).parents input hInput
    · rw [List.mem_singleton.mp hThere]
      exact hParent input hInput
  have hAncestors := ancestorsFor_of_parentsFor hParents
  constructor
  · exact hStanding.spending
  · apply hHolds.not_contains
    intro arrival hArrival
    rcases List.mem_append.mp hArrival with hHere | hThere
    · exact (hApart arrival hHere).ids
    · rw [List.mem_singleton.mp hThere]
      exact hId
  · exact hStanding.shape
  · exact hStanding.inputs
  · exact hStanding.heavy
  · exact hStanding.light
  · exact hStanding.relayed
  · rw [hDoomed, List.length_singleton]
    decide
  · intro _
    unfold checkReplacement
    rw [except_check_eq_ok, refuseIf_eq_ok, refuseIf_eq_ok,
      hDirect, hDoomed, List.any_cons, List.any_nil,
      Bool.or_false, Mempool.descendantTotals,
      hHolds.found_last.2.1, hHolds.found_last.2.2,
      decide_eq_false_iff_not]
    refine ⟨?_, Int64.not_le.mpr hMore⟩
    change (compareFeerate fee tx.weight oldFee old.weight !=
      .gt) = false
    rw [hRate]
    rfl
  · rw [hParents]
    exact nofun
  · rw [hAncestors]
    exact Nat.zero_le _
  · rw [hAncestors]
    exact nofun

theorem Holds.takeIn_over
    (hHolds :
      Holds c now (arrivals ++ [(old, oldFee)]) pool)
    (hAdmits :
      pool.Admits c tx spentCoins spendHeight params fee)
    (hIds :
      ∀ arrival ∈ arrivals,
        arrival.1.wtxid c ≠ old.wtxid c)
    (hDoomed : pool.doomedBy tx = [old.wtxid c])
    (hParents : pool.parentsFor tx = []) :
    Holds c now (arrivals ++ [(tx, fee)])
      (pool.takeIn c tx fee now) := by
  have hFits := hAdmits.fits hHolds.sound now
  rw [hDoomed, hParents] at hFits
  rw [takeIn, hDoomed, hParents]
  exact (hHolds.unlink hIds).insertEntry hFits

end Unlinked

end Mempool

------------------------------------------------------------
-- Transactions That Are Alike
------------------------------------------------------------

theorem checkedAdd_zero
    (total : Int64) :
    checkedAdd total 0 = some total := by
  have hLow := total.le_toInt
  have hHigh := total.toInt_lt
  have hFits : FitsInt64 (total.toInt + (0 : Int64).toInt) := by
    change FitsInt64 (total.toInt + 0)
    exact ⟨by omega, by omega⟩
  rw [checkedAdd, if_pos hFits, Int64.add_zero]

theorem sumAmounts_step
    {total amount next : Int64}
    (hAmount : isValidAmount amount = true)
    (hSum : checkedAdd total amount = some next)
    (hNext : isValidAmount next = true)
    (rest : List Int64) :
    sumAmounts total (amount :: rest) =
      sumAmounts next rest := by
  simp [sumAmounts, hAmount, hSum, hNext]

theorem checkOutputAmounts_step
    {total next : Int64}
    (output : TxOutput)
    (hAmount : isValidAmount output.amount = true)
    (hSum : checkedAdd total output.amount = some next)
    (hNext : isValidAmount next = true)
    (rest : List TxOutput) :
    checkOutputAmounts total (output :: rest) =
      checkOutputAmounts next rest := by
  simp [checkOutputAmounts, hAmount, hSum, hNext]

theorem sumAmounts_zeros
    {total : Int64}
    (hTotal : isValidAmount total = true)
    (count : Nat) :
    sumAmounts total (List.replicate count 0) =
      some total := by
  induction count with
  | zero => rfl
  | succ count ih =>
      have hZero : isValidAmount 0 = true := by decide
      rw [List.replicate_succ, sumAmounts_step hZero
        (checkedAdd_zero total) hTotal, ih]

theorem checkOutputAmounts_zeros
    {lock : Lock}
    {total : Int64}
    (hTotal : isValidAmount total = true)
    (count : Nat) :
    checkOutputAmounts total
        (List.replicate count { amount := 0, lock := lock }) =
      .ok () := by
  induction count with
  | zero => rfl
  | succ count ih =>
      have hZero : isValidAmount 0 = true := by decide
      rw [List.replicate_succ, checkOutputAmounts_step
        { amount := 0, lock := lock } hZero
        (checkedAdd_zero total) hTotal, ih]

namespace Sample

/- One paying output and some of nothing, from one input. -/
def spread
    (version index : UInt32)
    (change : Int64)
    (count : Nat) : Transaction :=
  { version := version
    inputs :=
      [{ outpoint := { txid := Bytes32.zero, index := index }
         sequence := 0 }]
    outputs :=
      { amount := change, lock := openLock } ::
        List.replicate count { amount := 0, lock := openLock }
    locktime := 0
    witnesses := [openWitness]
    coinbaseData := [] }

/- A coin that anyone may spend. -/
def coinOf
    (amount : Int64) : Coin :=
  { output := { amount := amount, lock := openLock }
    height := 0
    isCoinbase := false }

theorem spread_spending
    {index : UInt32}
    (hIndex : index ≠ coinbaseOutpointIndex)
    (version : UInt32)
    (change : Int64)
    (count : Nat) :
    (spread version index change count).isCoinbase =
      false := by
  change (Bytes32.zero.isZero &&
    (index == coinbaseOutpointIndex)) = false
  rw [beq_eq_false_iff_ne.mpr hIndex, Bool.and_false]

theorem spread_weight
    {index : UInt32}
    (hIndex : index ≠ coinbaseOutpointIndex)
    (version : UInt32)
    (change : Int64)
    (count : Nat) :
    (spread version index change count).weight =
      4 * ((writeCompactSize (count + 1)).length +
        10 * count) + 241 := by
  have hZeros :
      ∀ count : Nat,
        ((List.replicate count
          ({ amount := 0, lock := openLock } :
            TxOutput)).flatMap TxOutput.serialize).length =
          10 * count := by
    intro count
    induction count with
    | zero => rfl
    | succ count ih =>
        rw [List.replicate_succ, List.flatMap_cons,
          List.length_append, ih]
        change 10 + _ = _
        omega
  have hBase :
      (spread version index change
          count).serializeWithoutWitnesses.length =
        (writeCompactSize (count + 1)).length +
          10 * count + 59 := by
    simp only [Transaction.serializeWithoutWitnesses,
      spread, writeList, List.length_append, writeU32,
      length_littleEndian, List.flatMap_cons, hZeros,
      List.length_cons, List.length_replicate]
    change 4 + (1 + 40) + (_ + (10 + 10 * count)) + 4 = _
    omega
  have hFull :
      (spread version index change count).serialize.length =
        (spread version index change
          count).serializeWithoutWitnesses.length + 5 := by
    unfold Transaction.serialize
    rw [List.length_append, spread_spending hIndex]
    rfl
  have hWeight :
      (spread version index change count).weight =
        (spread version index change
            count).serializeWithoutWitnesses.length * 4 +
          ((spread version index change
              count).serialize.length -
            (spread version index change
              count).serializeWithoutWitnesses.length) :=
    rfl
  omega

/- An open lock asks nothing of the one who spends it. -/
theorem checkTransactionInputs_open
    {c : Crypto}
    {params : ChainParams}
    {tx : Transaction}
    {coin : Coin}
    {spendHeight : UInt32}
    {fee : Int64}
    (hSpending : tx.isCoinbase = false)
    (hInputs : tx.inputs.length = 1)
    (hWitnesses : tx.witnesses = [openWitness])
    (hLock : coin.output.lock = openLock)
    (hMature : isImmature params spendHeight coin = false)
    (hFee : transactionFee tx [coin] = .ok fee) :
    checkTransactionInputs c tx [coin] spendHeight params =
      .ok fee := by
  have hAuthorised :
      checkSpendAuthorisation c tx [coin] params = .ok () := by
    unfold checkSpendAuthorisation
    rw [except_check_eq_ok, except_check_eq_ok,
      except_check_eq_ok, rejectIf_eq_ok, rejectIf_eq_ok,
      rejectIf_eq_ok, hWitnesses, hInputs]
    refine ⟨hSpending, rfl, rfl, ?_⟩
    rw [authoriseInputs, authoriseInput, hLock]
    rfl
  unfold checkTransactionInputs
  rw [except_check_eq_ok, except_check_eq_ok,
    except_check_eq_ok, rejectIf_eq_ok, rejectIf_eq_ok,
    rejectIf_eq_ok, hFee, hInputs, List.any_cons, hMature]
  refine ⟨hSpending, rfl, rfl, ?_⟩
  change (checkSpendAuthorisation c tx [coin] params >>=
    fun _ => .ok fee) = .ok fee
  rw [hAuthorised]
  rfl

theorem spread_standing
    (c : Crypto)
    {version index : UInt32}
    {amount change fee : Int64}
    {count : Nat}
    (hIndex : index ≠ coinbaseOutpointIndex)
    (hCount : count < 50000)
    (hLight :
      4 * ((writeCompactSize (count + 1)).length +
        10 * count) + 241 ≤ 2000000)
    (hAmount : isValidAmount amount = true)
    (hChange : isValidAmount change = true)
    (hFee : amount - change = fee)
    (hPaid : ¬change > amount)
    (hRelayed :
      ¬fee <
        Int64.ofNat
          (4 * ((writeCompactSize (count + 1)).length +
            10 * count) + 241)) :
    Mempool.Standing c regtestParams
      (spread version index change count) [coinOf amount] 1
      fee := by
  have hSpending :=
    spread_spending hIndex version change count
  have hValid := (isValidAmount_iff change).mp hChange
  have hWeight := spread_weight hIndex version change count
  rw [← hWeight] at hLight hRelayed
  have hFirst :
      ∀ {value : Int64}, isValidAmount value = true →
        checkedAdd 0 value = some value := by
    intro value hValue
    have hRange := (isValidAmount_iff value).mp hValue
    have hFits : FitsInt64 ((0 : Int64).toInt + value.toInt) := by
      change FitsInt64 (0 + value.toInt)
      exact ⟨by omega, by omega⟩
    rw [checkedAdd, if_pos hFits, Int64.zero_add]
  constructor
  · exact hSpending
  · rw [checkTransaction_eq_ok]
    refine ⟨List.cons_ne_nil _ _, List.cons_ne_nil _ _,
      ?_, ?_, ?_, ?_, ?_, hLight⟩
    · have hMost :
          regtestParams.blockLimits.tx.maxInputs = 12500 := by
        decide
      rw [hMost]
      exact Nat.le_of_ble_eq_true rfl
    · have hMost :
          regtestParams.blockLimits.tx.maxOutputs =
            50000 := by
        decide
      rw [hMost, spread, List.length_cons,
        List.length_replicate]
      omega
    · rw [checkTransactionForm_eq_ok, hSpending]
      refine ⟨?_, fun _ => ⟨rfl, rfl, ?_⟩⟩
      · intro hYes
        cases hYes
      intro input hInput
      rw [List.mem_singleton.mp hInput]
      exact hSpending
    · rw [spread, checkOutputAmounts_step
        { amount := change, lock := openLock } hChange
        (hFirst hChange) hChange,
        checkOutputAmounts_zeros hChange]
    · intro _
      refine ⟨List.nodup_singleton _, ?_⟩
      intro witness hWitness
      rw [List.mem_singleton.mp hWitness]
      rfl
  · have hIn :
        sumAmounts 0
            ([coinOf amount].map fun coin =>
              coin.output.amount) =
          some amount := by
      change sumAmounts 0 [amount] = _
      rw [sumAmounts_step hAmount (hFirst hAmount) hAmount]
      rfl
    have hOut :
        sumAmounts 0
            ((spread version index change
              count).outputs.map TxOutput.amount) =
          some change := by
      change sumAmounts 0 (change ::
        (List.replicate count _).map TxOutput.amount) = _
      rw [List.map_replicate, sumAmounts_step hChange
        (hFirst hChange) hChange, sumAmounts_zeros hChange]
    have hFound :
        transactionFee (spread version index change count)
          [coinOf amount] = .ok fee := by
      unfold transactionFee
      rw [except_check_eq_ok, except_check_eq_ok,
        rejectIf_eq_ok, rejectIf_eq_ok]
      refine ⟨hSpending, rfl, ?_⟩
      rw [hIn, hOut, ← hFee]
      exact if_neg hPaid
    exact checkTransactionInputs_open hSpending rfl rfl rfl
      rfl hFound
  · omega
  · unfold maxMempoolWeight
    omega
  · rw [show minRelayFeerate = 1 from rfl, Int64.mul_one]
    exact hRelayed


/- Fillers that spend one outpoint each. -/
def fillers
    (number count : Nat)
    (fee : Int64) : List (Transaction × Int64) :=
  (List.range number).map fun k =>
    (spread (UInt32.ofNat (k + 1)) (UInt32.ofNat (k + 1)) 0
      count, fee)

/- Ids that tell the transactions apart. -/
structure Telling
    (c : Crypto)
    (arrivals : List (Transaction × Int64)) : Prop where
  wtxids :
    (arrivals.map fun arrival => arrival.1.wtxid c).Nodup
  txids :
    ∀ arrival ∈ arrivals, arrival.1.txid c ≠ Bytes32.zero

/- A digest of one byte, which is enough for few versions. -/
def firstByte : Crypto :=
  { sha256 := fun bytes => Bytes32.ofList [bytes.headD 0]
    verifySchnorr := fun _ _ _ => .invalid
    verifyWithOpenSsl := fun _ _ _ _ => .invalid }

theorem spread_unrelated
    {c : Crypto}
    {version index version' index' : UInt32}
    {change change' : Int64}
    {count count' : Nat}
    (hIds :
      (spread version index change count).wtxid c ≠
        (spread version' index' change' count').wtxid c)
    (hIndex : index ≠ index')
    (hTxid :
      (spread version index change count).txid c ≠
        Bytes32.zero) :
    Mempool.Unrelated c (spread version index change count)
      (spread version' index' change' count') where
  ids := hIds
  inputs := by
    intro input hInput hSpent
    rw [List.mem_singleton.mp hInput] at hSpent
    have hSame := List.mem_singleton.mp hSpent
    exact hIndex (OutPoint.mk.inj hSame).2.symm
  parents := by
    intro input hInput hSame
    rw [List.mem_singleton.mp hInput] at hSame
    exact hTxid hSame.symm

theorem filler_index
    {k : Nat}
    (hK : k < 1000) :
    UInt32.ofNat (k + 1) ≠ coinbaseOutpointIndex := by
  intro hSame
  have hEqual := congrArg UInt32.toNat hSame
  have hValue : (UInt32.ofNat (k + 1)).toNat = k + 1 :=
    UInt32.toNat_ofNat_of_lt' (by
      change k + 1 < 4294967296
      omega)
  rw [hValue] at hEqual
  change k + 1 = 4294967295 at hEqual
  omega

theorem filler_index_ne_zero
    {k : Nat}
    (hK : k < 1000) :
    UInt32.ofNat (k + 1) ≠ 0 := by
  intro hSame
  have hEqual := congrArg UInt32.toNat hSame
  have hValue : (UInt32.ofNat (k + 1)).toNat = k + 1 :=
    UInt32.toNat_ofNat_of_lt' (by
      change k + 1 < 4294967296
      omega)
  rw [hValue] at hEqual
  change k + 1 = 0 at hEqual
  omega

theorem fillers_unrelated
    {c : Crypto}
    {number count : Nat}
    {fee : Int64}
    {last : Transaction × Int64}
    (hNumber : number < 1000)
    (hTelling :
      Telling c (fillers number count fee ++ [last]))
    {version : UInt32}
    {change : Int64}
    {more : Nat}
    (hLast : last.1 = spread version 0 change more) :
    (fillers number count fee ++ [last]).Pairwise
      fun first second =>
        Mempool.Unrelated c first.1 second.1 := by
  have hIndex :
      ∀ k < number, (UInt32.ofNat (k + 1)).toNat = k + 1 :=
    fun k hK => UInt32.toNat_ofNat_of_lt' (by
      change k + 1 < 4294967296
      omega)
  have hIds := hTelling.wtxids
  rw [List.Nodup, List.pairwise_map,
    List.pairwise_append] at hIds
  rcases hIds with ⟨hFillers, -, hCross⟩
  rw [List.pairwise_append]
  refine ⟨?_, List.pairwise_singleton _ _, ?_⟩
  · unfold fillers at hFillers ⊢
    rw [List.pairwise_map] at hFillers ⊢
    refine (hFillers.and List.pairwise_lt_range).imp_of_mem ?_
    intro k l hK hL hBoth
    rw [List.mem_range] at hK hL
    apply spread_unrelated hBoth.1
    · intro hSame
      have hEqual := congrArg UInt32.toNat hSame
      rw [hIndex k hK, hIndex l hL] at hEqual
      omega
    · apply hTelling.txids (_, fee)
      apply List.mem_append_left
      exact List.mem_map.mpr
        ⟨k, List.mem_range.mpr hK, rfl⟩
  · intro first hFirst second hSecond
    have hDiffer := hCross first hFirst second hSecond
    have hTxid := hTelling.txids first
      (List.mem_append_left _ hFirst)
    rw [List.mem_singleton] at hSecond
    rcases List.mem_map.mp hFirst with ⟨k, hK, rfl⟩
    rw [List.mem_range] at hK
    rw [hSecond, hLast] at hDiffer ⊢
    exact spread_unrelated hDiffer
      (filler_index_ne_zero (by omega)) hTxid

theorem spread_resolved
    {base : Utxo}
    {index : UInt32}
    {coin : Coin}
    (hCoin :
      base { txid := Bytes32.zero, index := index } =
        some coin)
    (version : UInt32)
    (change : Int64)
    (count : Nat)
    (pool : Mempool) :
    pool.resolveInputs (spread version index change count)
      base 1 = some [coin] :=
  Mempool.resolveInputs_singleton rfl hCoin

theorem fillers_fees
    (number count : Nat)
    (fee : Int64) :
    ((fillers number count fee).map
        fun arrival => arrival.2.toInt).sum =
      number * fee.toInt := by
  rw [fillers, List.map_map]
  change ((List.range number).map fun _ => fee.toInt).sum = _
  rw [List.map_const', List.sum_replicate, List.length_range,
    nsmul_eq_mul]

theorem fillers_weight
    {number : Nat}
    (hNumber : number < 1000)
    (count : Nat)
    (fee : Int64) :
    ((fillers number count fee).map
        fun arrival => arrival.1.weight).sum =
      number *
        (4 * ((writeCompactSize (count + 1)).length +
          10 * count) + 241) := by
  rw [fillers, List.map_map]
  have hEach :
      ∀ k ∈ List.range number,
        (spread (UInt32.ofNat (k + 1)) (UInt32.ofNat (k + 1))
            0 count).weight =
          4 * ((writeCompactSize (count + 1)).length +
            10 * count) + 241 := by
    intro k hK
    rw [List.mem_range] at hK
    apply spread_weight
    apply filler_index (by omega)
  change ((List.range number).map fun k =>
    (spread (UInt32.ofNat (k + 1)) (UInt32.ofNat (k + 1)) 0
      count).weight).sum = _
  rw [List.map_congr_left hEach, List.map_const',
    List.sum_replicate_nat, List.length_range]

/- The fillers and one more transaction are let in. -/
theorem fillers_run
    {c : Crypto}
    {base : Utxo}
    {number count : Nat}
    {fee amount : Int64}
    {last : Transaction × Int64}
    {version : UInt32}
    {change : Int64}
    {more : Nat}
    (hNumber : number < 1000)
    (hTelling :
      Telling c (fillers number count fee ++ [last]))
    (hLast : last.1 = spread version 0 change more)
    (hCoins :
      ∀ k < number,
        base
            { txid := Bytes32.zero
              index := UInt32.ofNat (k + 1) } =
          some (coinOf fee))
    (hCoin :
      base { txid := Bytes32.zero, index := 0 } =
        some (coinOf amount))
    (hFillers :
      ∀ k < number,
        Mempool.Standing c regtestParams
          (spread (UInt32.ofNat (k + 1))
            (UInt32.ofNat (k + 1)) 0 count)
          [coinOf fee] 1 fee)
    (hStanding :
      Mempool.Standing c regtestParams last.1
        [coinOf amount] 1 last.2)
    (hRoom :
      ((fillers number count fee ++ [last]).map
          fun arrival => arrival.1.weight).sum ≤
        maxMempoolWeight) :
    Mempool.Holds c 0 (fillers number count fee ++ [last])
      (Mempool.run c regtestParams
        (Mempool.entering base 1 0
          (fillers number count fee ++ [last]))) := by
  apply Mempool.holds_run c regtestParams base 1 0 _
    (fillers_unrelated hNumber hTelling hLast) _ hRoom
  intro arrival hArrival
  rcases List.mem_append.mp hArrival with hFiller | hHere
  · rcases List.mem_map.mp hFiller with ⟨k, hK, rfl⟩
    rw [List.mem_range] at hK
    exact ⟨[coinOf fee],
      spread_resolved (hCoins k hK) _ _ _, hFillers k hK⟩
  · rw [List.mem_singleton.mp hHere]
    refine ⟨[coinOf amount], ?_, hStanding⟩
    rw [hLast]
    exact spread_resolved hCoin _ _ _

theorem Telling.sublist
    {c : Crypto}
    {arrivals fewer : List (Transaction × Int64)}
    (hTelling : Telling c arrivals)
    (hFewer : fewer.Sublist arrivals) :
    Telling c fewer :=
  ⟨hTelling.wtxids.sublist (hFewer.map _),
    fun arrival hArrival =>
      hTelling.txids arrival (hFewer.subset hArrival)⟩

/- The transaction after the fillers is outbid by another. -/
theorem fillers_outbid
    {c : Crypto}
    {number count : Nat}
    {fee : Int64}
    {pool : Mempool}
    {old arrival : Transaction × Int64}
    {spentCoins : List Coin}
    {version version' : UInt32}
    {change change' : Int64}
    {more more' : Nat}
    (hNumber : number < 1000)
    (hTelling :
      Telling c
        (fillers number count fee ++ [old, arrival]))
    (hHolds :
      Mempool.Holds c 0 (fillers number count fee ++ [old])
        pool)
    (hOld : old.1 = spread version 0 change more)
    (hArrival : arrival.1 = spread version' 0 change' more')
    (hStanding :
      Mempool.Standing c regtestParams arrival.1 spentCoins 1
        arrival.2)
    (hRate :
      compareFeerate arrival.2 arrival.1.weight old.2
        old.1.weight = .gt)
    (hMore : old.2 < arrival.2) :
    pool.Admits c arrival.1 spentCoins 1 regtestParams
        arrival.2 ∧
      pool.doomedBy arrival.1 = [old.1.wtxid c] ∧
      Mempool.Holds c 0
        (fillers number count fee ++ [arrival])
        (pool.takeIn c arrival.1 arrival.2 0) := by
  have hSplit :
      fillers number count fee ++ [old, arrival] =
        (fillers number count fee ++ [old]) ++ [arrival] := by
    simp
  have hWithout :
      (fillers number count fee ++ [arrival]).Sublist
        (fillers number count fee ++ [old, arrival]) :=
    List.Sublist.append_left
      (List.sublist_cons_self old [arrival]) _
  have hPairs := fillers_unrelated hNumber
    (hTelling.sublist hWithout) hArrival
  rw [List.pairwise_append] at hPairs
  have hApart :
      Mempool.Apart c (fillers number count fee) arrival.1 :=
    fun other hOther =>
      hPairs.2.2 other hOther arrival
        (List.mem_singleton_self _)
  have hSame : arrival.1.inputs = old.1.inputs := by
    rw [hArrival, hOld]
    rfl
  have hIds := hTelling.wtxids
  rw [List.map_append, List.nodup_append] at hIds
  rcases hIds with ⟨-, hPair, hCross⟩
  have hZero :
      ∀ input ∈ arrival.1.inputs,
        input.outpoint.txid = Bytes32.zero := by
    intro input hInput
    rw [hArrival] at hInput
    rw [List.mem_singleton.mp hInput]
  have hParents :
      ∀ other ∈ fillers number count fee ++ [old],
        ∀ input ∈ arrival.1.inputs,
          input.outpoint.txid ≠ other.1.txid c := by
    intro other hOther input hInput hId
    rw [hZero input hInput] at hId
    apply hTelling.txids other _ hId.symm
    rw [hSplit]
    exact List.mem_append_left _ hOther
  have hAdmits :
      pool.Admits c arrival.1 spentCoins 1 regtestParams
        arrival.2 := by
    apply hHolds.admits_over hApart hStanding hSame _ _ hRate
      hMore
    · intro hId
      rw [List.map_cons, List.nodup_cons] at hPair
      apply hPair.1
      rw [hId]
      exact List.mem_cons_self ..
    · intro input hInput
      exact hParents old (List.mem_append_right _
        (List.mem_singleton_self _)) input hInput
  have hDoomed :=
    (hHolds.doomedBy_one hApart hSame
      (checkTransaction_eq_ok.mp hStanding.shape).1).2
  refine ⟨hAdmits, hDoomed, ?_⟩
  apply hHolds.takeIn_over hAdmits _ hDoomed
    (hHolds.parentsFor hParents)
  intro other hOther hId
  exact hCross _
    (List.mem_map_of_mem hOther) _
    (List.mem_cons_self ..) hId

end Sample

end Amarian
