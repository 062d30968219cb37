import Amarian.Mempool.Exactness
import Amarian.Mempool.Templates
import Amarian.Utxo.Outcome

/-
  A selection from the pool as the transactions of a block.

  Every entry follows its parents, so the coins it resolved
  to in the pool are there when its turn comes: those of the
  chain, because no other entry spends them, and those of its
  parents, because they have just been created.

  Key definitions include:
    * `Mempool.ValidAt`
    * `Mempool.Joined`

  Key theorems include:
    * `Mempool.Joined.connects`
-/

------------------------------------------------------------
-- Valid Entries
------------------------------------------------------------

namespace Amarian

/- Nothing that passed spends what nobody can spend. -/
theorem authoriseInputs_stored
    {c : Crypto}
    {params : ChainParams}
    {tx : Transaction}
    {midstates : SigHashMidstates}
    {index : Nat}
    {coins : List Coin}
    {witnesses : List Witness}
    (hLength : coins.length = witnesses.length)
    (hPasses :
      authoriseInputs c params tx midstates index coins
        witnesses = .ok ()) :
    ∀ coin ∈ coins, isStored coin.output = true := by
  induction coins generalizing index witnesses with
  | nil => exact fun _ hCoin => nomatch hCoin
  | cons coin coins ih =>
      cases witnesses with
      | nil => cases hLength
      | cons witness witnesses =>
          rw [authoriseInputs, except_check_eq_ok] at hPasses
          rw [List.forall_mem_cons]
          refine ⟨?_, ih (Nat.succ.inj hLength) hPasses.2⟩
          have hHere := hPasses.1
          unfold authoriseInput at hHere
          split at hHere
          · cases hHere
          · rename_i hOpen
            rw [isStored, Bool.eq_false_iff.mpr hOpen]
            rfl

theorem checkTransactionInputs_stored
    {c : Crypto}
    {params : ChainParams}
    {tx : Transaction}
    {spent : List Coin}
    {height : UInt32}
    {fee : Int64}
    (hInputs :
      checkTransactionInputs c tx spent height params =
        .ok fee) :
    tx.isCoinbase = false ∧
      spent.length = tx.inputs.length ∧
      ∀ coin ∈ spent, isStored coin.output = true := by
  unfold checkTransactionInputs checkSpendAuthorisation
    at hInputs
  rw [except_check_eq_ok, except_check_eq_ok,
    except_check_eq_ok, rejectIf_eq_ok, rejectIf_eq_ok,
    bne_eq_false_iff_eq] at hInputs
  rcases hInputs with ⟨hPlain, hLength, -, hInputs⟩
  rcases except_bind_eq_ok.mp hInputs with
    ⟨found, -, hAuthorised⟩
  rw [except_check_eq_ok, except_check_eq_ok,
    except_check_eq_ok, except_check_eq_ok, rejectIf_eq_ok,
    rejectIf_eq_ok, rejectIf_eq_ok, bne_eq_false_iff_eq,
    bne_eq_false_iff_eq] at hAuthorised
  rcases hAuthorised with ⟨⟨-, -, hWitnesses, hPasses⟩, -⟩
  exact ⟨hPlain, hLength,
    authoriseInputs_stored (hLength.trans hWitnesses.symm)
      hPasses⟩

namespace Mempool

/-
  Every entry is well formed and passes the input rules with
  the fee it records, against the coins of the chain and the
  outputs of the pool.
-/
def ValidAt
    (c : Crypto)
    (params : ChainParams)
    (pool : Mempool)
    (base : Utxo)
    (height : UInt32) : Prop :=
  ∀ id links, pool.entries.lookup id = some links →
    checkTransaction links.entry.tx params = .ok () ∧
      ∃ spent,
        pool.resolveInputs links.entry.tx base height =
            some spent ∧
          checkTransactionInputs c links.entry.tx spent height
              params =
            .ok links.entry.fee

------------------------------------------------------------
-- Coins On The Way
------------------------------------------------------------

/-
  The coins after some entries have been connected: what they
  did not spend of the chain's coins and of their outputs.
-/
structure Joined
    (pool : Mempool)
    (base : Utxo)
    (height : UInt32)
    (done : List Hash256)
    (coins : Utxo) : Prop where
  kept :
    ∀ outpoint coin, base outpoint = some coin →
      (∀ id ∈ done, pool.spentBy outpoint ≠ some id) →
        coins outpoint = some coin
  made :
    ∀ id ∈ done, ∀ links,
      pool.entries.lookup id = some links →
        ∀ index output,
          links.entry.tx.outputs[index]? = some output →
            isStored output = true →
              (∀ other ∈ done,
                pool.spentBy
                    (outPointFor links.entry.txid index) ≠
                  some other) →
                coins (outPointFor links.entry.txid index) =
                  some { output, height, isCoinbase := false }

section Joining

variable {c : Crypto} {params : ChainParams}
variable {pool : Mempool} {base coins : Utxo}
variable {height : UInt32} {done : List Hash256}
variable {id : Hash256} {links : EntryInternal}

theorem Joined.start
    (hKept :
      ∀ outpoint coin, base outpoint = some coin →
        coins outpoint = some coin) :
    pool.Joined base height [] coins where
  kept := fun outpoint coin hCoin _ =>
    hKept outpoint coin hCoin
  made := fun _ hDone => nomatch hDone

/- What the next entry resolved to is there. -/
theorem Joined.found
    (hJoined : pool.Joined base height done coins)
    (hExact : pool.Exact c)
    (hLinks : pool.entries.lookup id = some links)
    (hFresh : id ∉ done)
    (hParents : ∀ parent ∈ links.parents, parent ∈ done)
    {spent : List Coin}
    (hResolved :
      pool.resolveInputs links.entry.tx base height =
        some spent)
    (hStored :
      ∀ coin ∈ spent, isStored coin.output = true) :
    links.entry.tx.inputs.mapM
        (fun input => coins input.outpoint) =
      some spent := by
  rw [← hResolved]
  apply mapM_congr
  intro input hInput
  have hSpends :
      pool.spentBy input.outpoint = some id :=
    (hExact.spends _ _).mpr ⟨links, hLinks,
      List.mem_map_of_mem hInput⟩
  have hUnspent :
      ∀ other ∈ done,
        pool.spentBy input.outpoint ≠ some other := by
    intro other hOther hSame
    rw [hSpends] at hSame
    cases hSame
    exact hFresh hOther
  rcases exists_of_mapM hResolved input hInput with
    ⟨coin, hMember, hCoin⟩
  rw [hCoin]
  cases hBase : base input.outpoint with
  | some confirmed =>
      rw [hBase] at hCoin
      cases hCoin
      exact hJoined.kept _ _ hBase hUnspent
  | none =>
      rw [hBase] at hCoin
      rcases Option.bind_eq_some_iff.mp hCoin with
        ⟨parent, hParent, hOutput⟩
      rcases Option.bind_eq_some_iff.mp hParent with
        ⟨parentId, hIndexed, hEntry⟩
      rcases Option.map_eq_some_iff.mp hEntry with
        ⟨parentLinks, hFound, rfl⟩
      rcases Option.map_eq_some_iff.mp hOutput with
        ⟨output, hAt, rfl⟩
      rcases (hExact.txids _ _).mp hIndexed with
        ⟨same, hSame, hTxid⟩
      rw [hFound] at hSame
      cases hSame
      have hParentDone : parentId ∈ done := by
        apply hParents
        apply ((hExact.links parentId parentLinks hFound id
          links hLinks).2).mpr
        exact ⟨input, hInput, hTxid.symm⟩
      have hOutpoint :
          outPointFor parentLinks.entry.txid
              input.outpoint.index.toNat =
            input.outpoint := by
        rw [hTxid, outPointFor, UInt32.ofNat_toNat]
      have hMade := hJoined.made parentId hParentDone
        parentLinks hFound _ output hAt
        (hStored _ hMember)
      rw [hOutpoint] at hMade
      exact hMade hUnspent

/- Connecting the next entry leaves the coins as expected. -/
theorem Joined.step
    (hJoined : pool.Joined base height done coins)
    (hExact : pool.Exact c)
    (hLinks : pool.entries.lookup id = some links)
    {unspent after : Utxo}
    (hKept :
      ∀ outpoint,
        outpoint ∉
            links.entry.tx.inputs.map TxInput.outpoint →
          unspent outpoint = coins outpoint)
    (hAdded :
      Utxo.addOutputs (links.entry.tx.txid c) height false 0
          links.entry.tx.outputs unspent =
        .ok after) :
    pool.Joined base height (done ++ [id]) after := by
  have hTxid := (hExact.ids id links hLinks).2
  have hFrame :
      ∀ outpoint coin,
        coins outpoint = some coin →
          (∀ other ∈ done ++ [id],
            pool.spentBy outpoint ≠ some other) →
            after outpoint = some coin := by
    intro outpoint coin hCoin hUnspent
    apply (Utxo.addOutputs_frame _ hAdded).1
    rw [hKept outpoint, hCoin]
    intro hSpends
    apply hUnspent id (by simp)
    exact (hExact.spends _ _).mpr ⟨links, hLinks, hSpends⟩
  constructor
  · intro outpoint coin hBase hUnspent
    apply hFrame outpoint coin _ hUnspent
    apply hJoined.kept outpoint coin hBase
    intro other hOther
    exact hUnspent other (List.mem_append_left _ hOther)
  · intro other hOther found hFound index output hOutput
      hStored hUnspent
    rcases List.mem_append.mp hOther with hOld | hNew
    · apply hFrame _ _ _ hUnspent
      apply hJoined.made other hOld found hFound index output
        hOutput hStored
      intro earlier hEarlier
      exact hUnspent earlier
        (List.mem_append_left _ hEarlier)
    · rw [List.mem_singleton.mp hNew, hLinks] at hFound
      cases hFound
      have hMade := Utxo.addOutputs_made hAdded hOutput
        hStored
      rw [Nat.zero_add, hTxid] at hMade
      exact hMade

------------------------------------------------------------
-- Fees On The Way
------------------------------------------------------------

/-
  The fees stay in the money range: because their sum does,
  or because the coins they come out of are worth no more.
-/
def Affordable
    (coins : Utxo)
    (fees rest : Int) : Prop :=
  fees + rest ≤ maxMoney.toInt ∨
    ∃ total,
      coins.Worth total ∧
        coins.Priced ∧ fees + total ≤ maxMoney.toInt

theorem Affordable.step
    {tx : Transaction}
    {spent : List Coin}
    {unspent after : Utxo}
    {fee : Int64}
    {fees rest : Int}
    (hAffordable : Affordable coins fees (fee.toInt + rest))
    (hRest : 0 ≤ rest)
    (hSpend :
      Utxo.spendInputs tx.inputs coins = .ok (spent, unspent))
    (hFee :
      checkTransactionInputs c tx spent height params =
        .ok fee) :
    fees + fee.toInt ≤ maxMoney.toInt ∧
      (Utxo.addOutputs (tx.txid c) height false 0 tx.outputs
          unspent = .ok after →
        Affordable after (fees + fee.toInt) rest) := by
  rcases hAffordable with
    hSum | ⟨total, hWorth, hPriced, hTotal⟩
  · exact ⟨by omega, fun _ => .inl (by omega)⟩
  rcases Exact.toInt_transactionFee
    (checkTransactionInputs_fee hFee) with
    ⟨hBalance, hAmounts⟩
  have hLeft := (hPriced.spendInputs hSpend).worth_nonneg
    (hWorth.spendInputs hSpend)
  have hOutputs :
      0 ≤ (tx.outputs.map fun output =>
        output.amount.toInt).sum := by
    apply List.sum_nonneg
    intro amount hAmount
    rcases List.mem_map.mp hAmount with
      ⟨output, hOutput, rfl⟩
    exact hAmounts output hOutput
  refine ⟨by omega, ?_⟩
  intro hAdded
  rcases (hWorth.spendInputs hSpend).addOutputs hAmounts
    hAdded with ⟨later, hLater, hLe⟩
  exact .inr ⟨later, hLater,
    (hPriced.spendInputs hSpend).addOutputs hAmounts hAdded,
    by omega⟩

theorem selected_lookup
    {ids : List Hash256}
    {entries : List Entry}
    (hFound : ids.map pool.find = entries.map some)
    {entry : Entry}
    (hEntry : entry ∈ entries) :
    ∃ id ∈ ids, ∃ links,
      pool.entries.lookup id = some links ∧
        links.entry = entry := by
  have hThere : some entry ∈ ids.map pool.find := by
    rw [hFound]
    exact List.mem_map_of_mem hEntry
  rcases List.mem_map.mp hThere with ⟨id, hId, hFind⟩
  rcases Option.map_eq_some_iff.mp hFind with
    ⟨links, hLinks, hSame⟩
  exact ⟨id, hId, links, hLinks, hSame⟩

theorem fees_nonneg
    (hValid : pool.ValidAt c params base height)
    {ids : List Hash256}
    {entries : List Entry}
    (hFound : ids.map pool.find = entries.map some) :
    ∀ fee ∈ entries.map fun entry => entry.fee.toInt,
      0 ≤ fee := by
  intro fee hFee
  rcases List.mem_map.mp hFee with ⟨entry, hEntry, rfl⟩
  rcases selected_lookup hFound hEntry with
    ⟨id, -, links, hLinks, rfl⟩
  rcases hValid id links hLinks with ⟨-, spent, -, hInputs⟩
  exact ((isValidAmount_iff _).mp (transactionFee_valid
    (checkTransactionInputs_fee hInputs))).1

/-
  The entries behind those done connect one after another,
  unless one of them creates what is already there.
-/
theorem Joined.connects
    (hJoined : pool.Joined base height done coins)
    (hExact : pool.Exact c)
    (hValid : pool.ValidAt c params base height)
    {rest : List Hash256}
    {entries : List Entry}
    (hFound : rest.map pool.find = entries.map some)
    (hDistinct : (done ++ rest).Nodup)
    (hOrdered :
      Search.ParentsFirst
        (pool.linked EntryInternal.parents) (done ++ rest))
    {fees : Int64}
    (hFees : 0 ≤ fees.toInt ∧ fees.toInt ≤ maxMoney.toInt)
    (hAffordable :
      Affordable coins fees.toInt
        (entries.map fun entry => entry.fee.toInt).sum) :
    ExceptFailsOnly .txCreatesExistingOutpoint
      (fun connected =>
        connected.2.1.toInt =
            fees.toInt +
              (entries.map fun entry =>
                entry.fee.toInt).sum ∧
          connected.2.1.toInt ≤ maxMoney.toInt)
      (Utxo.connectSpends c params height
        (entries.map Entry.tx) fees coins) := by
  induction rest generalizing done coins fees entries with
  | nil =>
      cases entries with
      | nil => exact ⟨(Int.add_zero _).symm, hFees.2⟩
      | cons entry entries => cases hFound
  | cons id rest ih =>
      cases entries with
      | nil => cases hFound
      | cons entry entries =>
          rw [List.map_cons, List.map_cons,
            List.cons.injEq] at hFound
          rcases Option.map_eq_some_iff.mp hFound.1 with
            ⟨links, hLinks, rfl⟩
          have hFresh : id ∉ done := by
            intro hDone
            exact (List.nodup_append.mp hDistinct).2.2 id
              hDone id (List.mem_cons_self ..) rfl
          have hParents :
              ∀ parent ∈ links.parents, parent ∈ done := by
            intro parent hParent
            apply hOrdered done id rest rfl
            exact mem_linked.mpr ⟨links, hLinks, hParent⟩
          rcases hValid id links hLinks with
            ⟨hForm, spent, hResolved, hInputs⟩
          rcases checkTransactionInputs_stored hInputs with
            ⟨hPlain, -, hStored⟩
          rcases checkTransaction_eq_ok.mp hForm with
            ⟨-, -, -, -, -, -, hNodup, -⟩
          rcases Utxo.spendInputs_of_found (hNodup hPlain).1
            (hJoined.found hExact hLinks hFresh hParents
              hResolved hStored) with
            ⟨unspent, hSpend, hKept⟩
          have hFee := (isValidAmount_iff _).mp
            (transactionFee_valid
              (checkTransactionInputs_fee hInputs))
          have hRest := List.sum_nonneg
            (fees_nonneg hValid hFound.2)
          rw [List.map_cons, List.sum_cons] at hAffordable ⊢
          have hPaid := fun after =>
            @Affordable.step _ _ _ _ _ _ _ after _ _ _
              hAffordable hRest hSpend hInputs
          rcases accumulateFee_of_le hFees.1 hFee.1
            (hPaid coins).1 with ⟨hSum, hTotal⟩
          rw [List.map_cons, Utxo.connectSpends_step hPlain
            hSpend hInputs hSum]
          refine (Utxo.addOutputs_failsOnly (links.entry.tx.txid
            c) height false 0 links.entry.tx.outputs
            unspent).bind ?_
          intro after hAdded _
          have hNext := ih
            (hJoined.step hExact hLinks hKept hAdded)
            hFound.2
            (by simpa using hDistinct)
            (by simpa using hOrdered)
            (by rw [hTotal]; have := hPaid coins; omega)
            (by rw [hTotal]; exact (hPaid after).2 hAdded)
          refine hNext.bind ?_
          intro later _ hLater
          rw [hTotal, Int.add_assoc] at hLater
          exact hLater

end Joining

end Mempool

end Amarian
