import Amarian.Utxo.Txids
import Mathlib.Algebra.Order.BigOperators.Group.Finset
import Amarian.Utxo.Worth

/-
  When spending and creating succeed, and what they leave.

  Key definitions include:
    * `Utxo.Every`
    * `Utxo.Priced`

  Key theorems include:
    * `Utxo.spendInputs_of_found`
    * `Utxo.addOutputs_made`
    * `Utxo.connectBlock_made`
    * `accumulateFee_of_le`
    * `Utxo.Every.connectBlock`
-/

------------------------------------------------------------
-- Inputs
------------------------------------------------------------

namespace Amarian

theorem mapM_congr
    {α β : Type}
    {items : List α}
    {f g : α → Option β}
    (hSame : ∀ item ∈ items, f item = g item) :
    items.mapM f = items.mapM g := by
  induction items with
  | nil => rfl
  | cons item items ih =>
      rw [List.forall_mem_cons] at hSame
      rw [List.mapM_cons, List.mapM_cons, hSame.1,
        ih hSame.2]

theorem mapM_cons_eq_some
    {α β : Type}
    {item : α}
    {items : List α}
    {f : α → Option β}
    {results : List β} :
    (item :: items).mapM f = some results ↔
      ∃ first rest,
        f item = some first ∧
          items.mapM f = some rest ∧
          results = first :: rest := by
  rw [List.mapM_cons]
  simp only [Option.bind_eq_bind, Option.bind_eq_some_iff,
    Option.pure_def, Option.some.injEq]
  constructor
  · rintro ⟨first, hFirst, rest, hRest, rfl⟩
    exact ⟨first, rest, hFirst, hRest, rfl⟩
  · rintro ⟨first, rest, hFirst, hRest, rfl⟩
    exact ⟨first, hFirst, rest, hRest, rfl⟩

theorem exists_of_mapM
    {α β : Type}
    {items : List α}
    {f : α → Option β}
    {results : List β}
    (hResults : items.mapM f = some results) :
    ∀ item ∈ items, ∃ result ∈ results,
      f item = some result := by
  induction items generalizing results with
  | nil => exact fun _ hItem => nomatch hItem
  | cons item items ih =>
      rcases mapM_cons_eq_some.mp hResults with
        ⟨first, rest, hFirst, hRest, rfl⟩
      rw [List.forall_mem_cons]
      refine ⟨⟨first, List.mem_cons_self .., hFirst⟩, ?_⟩
      intro other hOther
      rcases ih hRest other hOther with
        ⟨result, hMember, hResult⟩
      exact ⟨result, List.mem_cons_of_mem _ hMember, hResult⟩

namespace Utxo

/- Different outpoints that all hold a coin can be spent. -/
theorem spendInputs_of_found
    {inputs : List TxInput}
    {coins : Utxo}
    {spent : List Coin}
    (hDistinct : (inputs.map TxInput.outpoint).Nodup)
    (hFound :
      inputs.mapM (fun input => coins input.outpoint) =
        some spent) :
    ∃ after,
      spendInputs inputs coins = .ok (spent, after) ∧
        ∀ outpoint,
          outpoint ∉ inputs.map TxInput.outpoint →
            after outpoint = coins outpoint := by
  induction inputs generalizing coins spent with
  | nil =>
      cases hFound
      exact ⟨coins, rfl, fun _ _ => rfl⟩
  | cons input inputs ih =>
      rw [List.map_cons, List.nodup_cons] at hDistinct
      rcases mapM_cons_eq_some.mp hFound with
        ⟨coin, rest, hCoin, hRest, rfl⟩
      have hStill :
          inputs.mapM
              (fun other =>
                Function.update coins input.outpoint none
                  other.outpoint) =
            some rest := by
        rw [← hRest]
        apply mapM_congr
        intro other hOther
        apply Function.update_of_ne
        intro hSame
        apply hDistinct.1
        rw [← hSame]
        exact List.mem_map_of_mem hOther
      rcases ih hDistinct.2 hStill with
        ⟨after, hAfter, hKept⟩
      refine ⟨after, ?_, ?_⟩
      · exact spendInputs_cons.mpr
          ⟨coin, rest, rfl, hCoin, hAfter⟩
      · intro outpoint hOutside
        rw [List.map_cons, List.mem_cons, not_or] at hOutside
        rw [hKept outpoint hOutside.2,
          Function.update_of_ne hOutside.1]

------------------------------------------------------------
-- Outputs
------------------------------------------------------------

theorem addOutputs_failsOnly
    (txid : Hash256)
    (height : UInt32)
    (isCoinbase : Bool)
    (index : Nat)
    (outputs : List TxOutput)
    (coins : Utxo) :
    ExceptFailsOnly .txCreatesExistingOutpoint
      (fun _ => True)
      (addOutputs txid height isCoinbase index outputs
        coins) := by
  induction outputs generalizing index coins with
  | nil => exact trivial
  | cons output outputs ih =>
      unfold addOutputs
      split
      · split
        · rfl
        · exact ih _ _
      · exact ih _ _

/- Every output worth remembering is there afterwards. -/
theorem addOutputs_made
    {txid : Hash256}
    {height : UInt32}
    {isCoinbase : Bool}
    {index : Nat}
    {outputs : List TxOutput}
    {coins after : Utxo}
    (hAdded :
      addOutputs txid height isCoinbase index outputs coins =
        .ok after)
    {offset : Nat}
    {output : TxOutput}
    (hOutput : outputs[offset]? = some output)
    (hStored : isStored output = true) :
    after (outPointFor txid (index + offset)) =
      some { output, height, isCoinbase } := by
  induction outputs generalizing index coins offset with
  | nil => cases hOutput
  | cons first outputs ih =>
      unfold addOutputs at hAdded
      cases offset with
      | zero =>
          cases hOutput
          rw [if_pos hStored] at hAdded
          split at hAdded
          · cases hAdded
          rename_i middle hMade
          rcases add_eq_some.mp hMade with ⟨-, rfl⟩
          exact (addOutputs_frame (Function.update_self ..)
            hAdded).1
      | succ offset =>
          rw [show index + (offset + 1) = index + 1 + offset
            by omega]
          split at hAdded
          · split at hAdded
            · cases hAdded
            · exact ih hAdded hOutput
          · exact ih hAdded hOutput

------------------------------------------------------------
-- What Holds Of Every Coin
------------------------------------------------------------

/- Each coin meets a condition. -/
def Every
    (holds : OutPoint → Coin → Prop)
    (coins : Utxo) : Prop :=
  ∀ outpoint coin, coins outpoint = some coin →
    holds outpoint coin

/- No coin has a negative amount. -/
def Priced
    (coins : Utxo) : Prop :=
  ∀ outpoint coin, coins outpoint = some coin →
    0 ≤ coin.output.amount.toInt

theorem spendInputs_subset
    {inputs : List TxInput}
    {coins after : Utxo}
    {spent : List Coin}
    (hSpend : spendInputs inputs coins = .ok (spent, after)) :
    ∀ outpoint coin, after outpoint = some coin →
      coins outpoint = some coin := by
  induction inputs generalizing coins spent with
  | nil =>
      cases hSpend
      exact fun _ _ hCoin => hCoin
  | cons input inputs ih =>
      rcases spendInputs_cons.mp hSpend with
        ⟨coin, rest, -, -, hRest⟩
      intro outpoint other hOther
      have hMiddle := ih hRest outpoint other hOther
      by_cases hSame : outpoint = input.outpoint
      · rw [hSame, Function.update_self] at hMiddle
        cases hMiddle
      · rw [Function.update_of_ne hSame] at hMiddle
        exact hMiddle

/- A coin that is new holds the output of its index. -/
theorem addOutputs_origin
    {txid : Hash256}
    {height : UInt32}
    {isCoinbase : Bool}
    {index : Nat}
    {outputs : List TxOutput}
    {coins after : Utxo}
    (hAdded :
      addOutputs txid height isCoinbase index outputs coins =
        .ok after) :
    ∀ outpoint coin, after outpoint = some coin →
      coins outpoint = some coin ∨
        ∃ place,
          outputs[place]? = some coin.output ∧
            outpoint = outPointFor txid (index + place) := by
  induction outputs generalizing index coins with
  | nil =>
      cases hAdded
      exact fun _ _ hCoin => .inl hCoin
  | cons output outputs ih =>
      have hShift :
          ∀ {outpoint coin},
            (∃ place,
              outputs[place]? = some (Coin.output coin) ∧
                outpoint =
                  outPointFor txid (index + 1 + place)) →
              ∃ place,
                (output :: outputs)[place]? =
                    some coin.output ∧
                  outpoint =
                    outPointFor txid (index + place) := by
        rintro outpoint coin ⟨place, hOutput, rfl⟩
        exact ⟨place + 1, hOutput, by
          rw [Nat.add_assoc, Nat.add_comm 1]⟩
      unfold addOutputs at hAdded
      intro outpoint coin hCoin
      split at hAdded
      · split at hAdded
        · cases hAdded
        rename_i middle hMade
        rcases add_eq_some.mp hMade with ⟨-, rfl⟩
        rcases ih hAdded outpoint coin hCoin with
          hMiddle | hLater
        · by_cases hSame : outpoint = outPointFor txid index
          · rw [hSame, Function.update_self] at hMiddle
            cases hMiddle
            exact .inr ⟨0, rfl, hSame⟩
          · rw [Function.update_of_ne hSame] at hMiddle
            exact .inl hMiddle
        · exact .inr (hShift hLater)
      · exact (ih hAdded outpoint coin hCoin).imp_right hShift

/- The outputs of a transaction, as the coins they become. -/
def OutputsHold
    (c : Crypto)
    (holds : OutPoint → Coin → Prop)
    (tx : Transaction) : Prop :=
  ∀ place coin, tx.outputs[place]? = some (Coin.output coin) →
    holds (outPointFor (tx.txid c) place) coin

namespace Every

variable {c : Crypto} {params : ChainParams}
variable {holds : OutPoint → Coin → Prop}
variable {coins after : Utxo}

theorem empty :
    Every holds Utxo.empty :=
  fun _ _ hCoin => nomatch hCoin

theorem spendInputs
    (hEvery : Every holds coins)
    {inputs : List TxInput}
    {spent : List Coin}
    (hSpend :
      Utxo.spendInputs inputs coins = .ok (spent, after)) :
    Every holds after :=
  fun outpoint coin hCoin => hEvery outpoint coin
    (spendInputs_subset hSpend outpoint coin hCoin)

theorem addOutputs
    (hEvery : Every holds coins)
    {tx : Transaction}
    {height : UInt32}
    {isCoinbase : Bool}
    (hOutputs : OutputsHold c holds tx)
    (hAdd :
      Utxo.addOutputs (tx.txid c) height isCoinbase 0
        tx.outputs coins = .ok after) :
    Every holds after := by
  intro outpoint coin hCoin
  rcases addOutputs_origin hAdd outpoint coin hCoin with
    hBefore | ⟨place, hOutput, rfl⟩
  · exact hEvery outpoint coin hBefore
  · rw [Nat.zero_add]
    exact hOutputs place coin hOutput

theorem connectSpends
    (hEvery : Every holds coins)
    {height : UInt32}
    {txs : List Transaction}
    {fees later : Int64}
    {undo : List TxUndo}
    (hOutputs : ∀ tx ∈ txs, OutputsHold c holds tx)
    (hConnect :
      Utxo.connectSpends c params height txs fees coins =
        .ok (undo, later, after)) :
    Every holds after := by
  induction txs generalizing coins fees undo with
  | nil =>
      cases hConnect
      exact hEvery
  | cons tx txs ih =>
      rw [List.forall_mem_cons] at hOutputs
      rcases connectSpends_cons.mp hConnect with
        ⟨spent, unspent, fee, feesNow, created, rest, rfl, -,
          hSpend, -, -, hCreate, hRest⟩
      exact ih ((hEvery.spendInputs hSpend).addOutputs
        hOutputs.1 hCreate) hOutputs.2 hRest

theorem connectBlock
    (hEvery : Every holds coins)
    {block : Block}
    {result : ConnectResult}
    (hOutputs :
      ∀ tx ∈ block.transactions, OutputsHold c holds tx)
    (hConnect :
      Utxo.connectBlock c params block coins =
        .ok (result, after)) :
    Every holds after := by
  rcases connectBlock_eq_ok.mp hConnect with
    ⟨first, rest, created, hTxs, -, hCreated, hRest, -⟩
  rw [hTxs, List.forall_mem_cons] at hOutputs
  exact (hEvery.addOutputs hOutputs.1
    hCreated).connectSpends hOutputs.2 hRest

end Every

namespace Priced

variable {coins after : Utxo}

theorem spendInputs
    (hPriced : coins.Priced)
    {inputs : List TxInput}
    {spent : List Coin}
    (hSpend :
      Utxo.spendInputs inputs coins = .ok (spent, after)) :
    after.Priced :=
  Every.spendInputs hPriced hSpend

theorem addOutputs
    (hPriced : coins.Priced)
    {txid : Hash256}
    {height : UInt32}
    {isCoinbase : Bool}
    {index : Nat}
    {outputs : List TxOutput}
    (hAmounts :
      ∀ output ∈ outputs, 0 ≤ output.amount.toInt)
    (hAdd :
      Utxo.addOutputs txid height isCoinbase index outputs
        coins = .ok after) :
    after.Priced := by
  intro outpoint coin hCoin
  rcases addOutputs_origin hAdd outpoint coin hCoin with
    hBefore | ⟨place, hOutput, -⟩
  · exact hPriced outpoint coin hBefore
  · exact hAmounts coin.output
      (List.mem_of_getElem? hOutput)

/- Coins of these amounts are worth something or nothing. -/
theorem worth_nonneg
    (hPriced : coins.Priced)
    {total : Int}
    (hWorth : coins.Worth total) :
    0 ≤ total := by
  rcases hWorth with ⟨unspent, -, rfl⟩
  apply Finset.sum_nonneg
  intro outpoint _
  unfold amountAt
  cases hCoin : coins outpoint with
  | none => exact Int.le_refl 0
  | some coin => exact hPriced outpoint coin hCoin

end Priced

------------------------------------------------------------
-- Coins Across A Block
------------------------------------------------------------

theorem spendInputs_kept
    {inputs : List TxInput}
    {coins after : Utxo}
    {spent : List Coin}
    (hSpend : spendInputs inputs coins = .ok (spent, after))
    {outpoint : OutPoint}
    (hUnspent : outpoint ∉ inputs.map TxInput.outpoint) :
    after outpoint = coins outpoint := by
  induction inputs generalizing coins spent with
  | nil =>
      cases hSpend
      rfl
  | cons input inputs ih =>
      rcases spendInputs_cons.mp hSpend with
        ⟨coin, rest, -, -, hRest⟩
      rw [List.map_cons, List.mem_cons, not_or] at hUnspent
      rw [ih hRest hUnspent.2,
        Function.update_of_ne hUnspent.1]

section Across

variable {c : Crypto} {params : ChainParams}
variable {height : UInt32} {txs : List Transaction}
variable {fees later : Int64} {undo : List TxUndo}
variable {coins after : Utxo} {outpoint : OutPoint}

theorem connectSpends_plain
    (hConnect :
      connectSpends c params height txs fees coins =
        .ok (undo, later, after)) :
    ∀ tx ∈ txs, tx.isCoinbase = false := by
  induction txs generalizing coins fees undo with
  | nil => exact fun _ hTx => nomatch hTx
  | cons tx txs ih =>
      rcases connectSpends_cons.mp hConnect with
        ⟨spent, unspent, fee, feesNow, created, rest, rfl,
          hPlain, -, -, -, -, hRest⟩
      exact List.forall_mem_cons.mpr ⟨hPlain, ih hRest⟩

theorem connectSpends_kept
    (hConnect :
      connectSpends c params height txs fees coins =
        .ok (undo, later, after))
    {coin : Coin}
    (hCoin : coins outpoint = some coin)
    (hUnspent :
      ∀ tx ∈ txs,
        outpoint ∉ tx.inputs.map TxInput.outpoint) :
    after outpoint = some coin := by
  induction txs generalizing coins fees undo with
  | nil =>
      cases hConnect
      exact hCoin
  | cons tx txs ih =>
      rw [List.forall_mem_cons] at hUnspent
      rcases connectSpends_cons.mp hConnect with
        ⟨spent, unspent, fee, feesNow, created, rest, rfl, -,
          hSpend, -, -, hCreate, hRest⟩
      rw [← spendInputs_kept hSpend hUnspent.1] at hCoin
      exact ih hRest (addOutputs_frame hCoin hCreate).1
        hUnspent.2

/- What a transaction made is there if no later one took it. -/
theorem connectSpends_made
    (hConnect :
      connectSpends c params height txs fees coins =
        .ok (undo, later, after))
    {tx : Transaction}
    (hTx : tx ∈ txs)
    {index : Nat}
    {output : TxOutput}
    (hOutput : tx.outputs[index]? = some output)
    (hStored : isStored output = true)
    (hUnspent :
      ∀ other ∈ txs,
        outPointFor (tx.txid c) index ∉
          other.inputs.map TxInput.outpoint) :
    after (outPointFor (tx.txid c) index) =
      some { output, height, isCoinbase := false } := by
  induction txs generalizing coins fees undo with
  | nil => cases hTx
  | cons first txs ih =>
      rw [List.forall_mem_cons] at hUnspent
      rcases connectSpends_cons.mp hConnect with
        ⟨spent, unspent, fee, feesNow, created, rest, rfl, -,
          -, -, -, hCreate, hRest⟩
      rcases List.mem_cons.mp hTx with rfl | hLater
      · have hMade := addOutputs_made hCreate hOutput hStored
        rw [Nat.zero_add] at hMade
        exact connectSpends_kept hRest hMade hUnspent.2
      · exact ih hRest hLater hUnspent.2

end Across

section Across

variable {c : Crypto} {params : ChainParams}
variable {block : Block} {result : ConnectResult}
variable {coins after : Utxo}

theorem connectBlock_kept
    (hConnect :
      connectBlock c params block coins =
        .ok (result, after))
    {outpoint : OutPoint}
    {coin : Coin}
    (hCoin : coins outpoint = some coin)
    (hUnspent : outpoint ∉ block.spentOutpoints) :
    after outpoint = some coin := by
  rcases connectBlock_eq_ok.mp hConnect with
    ⟨first, rest, created, hTxs, hFirst, hCreated, hRest, -⟩
  apply connectSpends_kept hRest
    (addOutputs_frame hCoin hCreated).1
  intro tx hTx hSpends
  apply hUnspent
  refine List.mem_flatMap.mpr ⟨tx, ?_, hSpends⟩
  rw [List.mem_filter, hTxs, connectSpends_plain hRest tx hTx]
  exact ⟨List.mem_cons_of_mem _ hTx, rfl⟩

theorem connectBlock_made
    (hConnect :
      connectBlock c params block coins =
        .ok (result, after))
    {tx : Transaction}
    (hTx : tx ∈ block.transactions)
    (hPlain : tx.isCoinbase = false)
    {index : Nat}
    {output : TxOutput}
    (hOutput : tx.outputs[index]? = some output)
    (hStored : isStored output = true)
    (hUnspent :
      outPointFor (tx.txid c) index ∉ block.spentOutpoints) :
    after (outPointFor (tx.txid c) index) =
      some
        { output := output
          height := block.header.height
          isCoinbase := false } := by
  rcases connectBlock_eq_ok.mp hConnect with
    ⟨first, rest, created, hTxs, hFirst, hCreated, hRest, -⟩
  rw [hTxs] at hTx
  have hLater : tx ∈ rest := by
    rcases List.mem_cons.mp hTx with rfl | hLater
    · rw [hFirst] at hPlain
      cases hPlain
    · exact hLater
  apply connectSpends_made hRest hLater hOutput hStored
  intro other hOther hSpends
  apply hUnspent
  refine List.mem_flatMap.mpr ⟨other, ?_, hSpends⟩
  rw [List.mem_filter, hTxs,
    connectSpends_plain hRest other hOther]
  exact ⟨List.mem_cons_of_mem _ hOther, rfl⟩

/- A coin that is new is an output of the block. -/
theorem connectBlock_origin
    (hConnect :
      connectBlock c params block coins =
        .ok (result, after))
    {outpoint : OutPoint}
    (hNone : coins outpoint = none)
    (hSome : after outpoint ≠ none) :
    outpoint.txid ∈
      block.transactions.map (Transaction.txid c) := by
  rcases Option.ne_none_iff_exists'.mp hSome with
    ⟨coin, hCoin⟩
  have hBefore :
      Every
        (fun outpoint coin =>
          coins outpoint = some coin ∨
            outpoint.txid ∈
              block.transactions.map (Transaction.txid c))
        coins :=
    fun _ _ hCoin => .inl hCoin
  have hEvery := hBefore.connectBlock
    (fun tx hTx _ _ _ => .inr (List.mem_map_of_mem hTx))
    hConnect
  rcases hEvery outpoint coin hCoin with hOld | hMade
  · rw [hNone] at hOld
    cases hOld
  · exact hMade

end Across

/- A transaction that passes leaves its outputs to be added. -/
theorem connectSpends_step
    {c : Crypto}
    {params : ChainParams}
    {height : UInt32}
    {tx : Transaction}
    {txs : List Transaction}
    {spent : List Coin}
    {coins unspent : Utxo}
    {fees fee feesNow : Int64}
    (hPlain : tx.isCoinbase = false)
    (hSpend :
      spendInputs tx.inputs coins = .ok (spent, unspent))
    (hInputs :
      checkTransactionInputs c tx spent height params =
        .ok fee)
    (hFees : accumulateFee fees fee = .ok feesNow) :
    connectSpends c params height (tx :: txs) fees coins =
      (do
        let created ←
          addOutputs (tx.txid c) height false 0 tx.outputs
            unspent
        let done ←
          connectSpends c params height txs feesNow created
        .ok (⟨spent⟩ :: done.1, done.2.1, done.2.2)) := by
  rw [connectSpends, hPlain, hSpend]
  simp only [rejectIf, Bool.false_eq_true, if_false, bind,
    Except.bind, hInputs, hFees]

end Utxo

------------------------------------------------------------
-- Fees
------------------------------------------------------------

theorem accumulateFee_of_le
    {totalFees fee : Int64}
    (hTotal : 0 ≤ totalFees.toInt)
    (hFee : 0 ≤ fee.toInt)
    (hSum :
      totalFees.toInt + fee.toInt ≤ maxMoney.toInt) :
    accumulateFee totalFees fee = .ok (totalFees + fee) ∧
      (totalFees + fee).toInt =
        totalFees.toInt + fee.toInt := by
  have hMoney : maxMoney.toInt = 83999999932170000 := rfl
  have hFits : FitsInt64 (totalFees.toInt + fee.toInt) := by
    unfold FitsInt64
    omega
  have hExact := toInt_add_of_fits hFits
  have hValid : isValidAmount (totalFees + fee) = true := by
    rw [isValidAmount_iff, hExact]
    omega
  refine ⟨?_, hExact⟩
  unfold accumulateFee checkedAdd
  rw [if_pos hFits]
  exact if_pos hValid

end Amarian
