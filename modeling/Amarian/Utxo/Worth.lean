import Mathlib.Algebra.BigOperators.Group.Finset.Basic
import Amarian.Utxo.Exact

/-
  What a set of coins is worth, and what a block may add.

  Key definitions include:
    * `Utxo.Worth`

  Key theorems include:
    * `Utxo.Worth.connectBlock`
-/

------------------------------------------------------------
-- The Worth Of A Set
------------------------------------------------------------

namespace Amarian

namespace Utxo

/- What an outpoint holds; nothing if it is not there. -/
def amountAt
    (coins : Utxo)
    (outpoint : OutPoint) : Int :=
  ((coins outpoint).map
    fun coin => coin.output.amount.toInt).getD 0

/-
  The outpoints that hold a coin are finitely many, and
  their amounts sum up to `total`.
-/
def Worth
    (coins : Utxo)
    (total : Int) : Prop :=
  ∃ unspent : Finset OutPoint,
    (∀ outpoint,
      outpoint ∈ unspent ↔
        (coins outpoint).isSome = true) ∧
      ∑ outpoint ∈ unspent, coins.amountAt outpoint = total

namespace Worth

variable {coins after : Utxo} {total : Int}

theorem empty :
    Utxo.Worth Utxo.empty 0 :=
  ⟨∅, by simp [Utxo.empty], Finset.sum_empty⟩

/- Writing elsewhere leaves the amounts as they are. -/
theorem sum_update
    {unspent : Finset OutPoint}
    {outpoint : OutPoint}
    (hOutside : outpoint ∉ unspent)
    (coins : Utxo)
    (coin : Option Coin) :
    ∑ other ∈ unspent,
        amountAt (Function.update coins outpoint coin)
          other =
      ∑ other ∈ unspent, coins.amountAt other := by
  refine Finset.sum_congr rfl ?_
  intro other hOther
  have hNe : other ≠ outpoint := by
    rintro rfl
    exact hOutside hOther
  rw [amountAt, amountAt, Function.update_of_ne hNe]

theorem spend
    (hWorth : coins.Worth total)
    {outpoint : OutPoint}
    {coin : Coin}
    (hSpend : coins.spend outpoint = some (coin, after)) :
    after.Worth (total - coin.output.amount.toInt) := by
  rcases hWorth with ⟨unspent, hUnspent, rfl⟩
  rcases Option.map_eq_some_iff.mp hSpend with
    ⟨found, hFound, hEq⟩
  cases hEq
  have hMember : outpoint ∈ unspent := by
    rw [hUnspent, hFound]
    rfl
  refine ⟨unspent.erase outpoint, ?_, ?_⟩
  · intro other
    rw [Finset.mem_erase, hUnspent]
    by_cases hOther : other = outpoint
    · simp [hOther]
    · simp [hOther]
  · rw [sum_update (Finset.notMem_erase _ _)]
    have hSplit := Finset.add_sum_erase unspent
      coins.amountAt hMember
    have hAmount : coins.amountAt outpoint =
        coin.output.amount.toInt := by
      rw [amountAt, hFound]
      rfl
    omega

theorem add
    (hWorth : coins.Worth total)
    {outpoint : OutPoint}
    {coin : Coin}
    (hAdd : coins.add outpoint coin = some after) :
    after.Worth (total + coin.output.amount.toInt) := by
  rcases hWorth with ⟨unspent, hUnspent, rfl⟩
  unfold Utxo.add at hAdd
  split at hAdd
  · cases hAdd
  rename_i hFree
  cases hAdd
  have hOutside : outpoint ∉ unspent := by
    rw [hUnspent]
    exact hFree
  refine ⟨insert outpoint unspent, ?_, ?_⟩
  · intro other
    rw [Finset.mem_insert, hUnspent]
    by_cases hOther : other = outpoint
    · simp [hOther]
    · simp [hOther]
  · rw [Finset.sum_insert hOutside, sum_update hOutside,
      amountAt, Function.update_self]
    exact Int.add_comm _ _

------------------------------------------------------------
-- Inputs And Outputs
------------------------------------------------------------

theorem spendInputs
    (hWorth : coins.Worth total)
    {inputs : List TxInput}
    {spent : List Coin}
    (hSpend :
      Utxo.spendInputs inputs coins = .ok (spent, after)) :
    after.Worth
      (total -
        (spent.map fun coin =>
          coin.output.amount.toInt).sum) := by
  induction inputs generalizing coins total spent with
  | nil =>
      cases hSpend
      simpa using hWorth
  | cons input inputs ih =>
      unfold Utxo.spendInputs at hSpend
      split at hSpend
      · cases hSpend
      · rename_i coin middle hFirst
        rcases except_bind_eq_ok.mp hSpend with
          ⟨⟨rest, last⟩, hRest, hDone⟩
        cases hDone
        have hAll := ih (hWorth.spend hFirst) hRest
        rw [List.map_cons, List.sum_cons, ← Int.sub_sub]
        exact hAll

/- A lock that nothing can open burns what it holds. -/
theorem addOutputs
    (hWorth : coins.Worth total)
    {txid : Hash256}
    {height : UInt32}
    {isCoinbase : Bool}
    {index : Nat}
    {outputs : List TxOutput}
    (hAmounts :
      ∀ output ∈ outputs, 0 ≤ output.amount.toInt)
    (hAdd :
      Utxo.addOutputs txid height isCoinbase index outputs
        coins = .ok after) :
    ∃ later,
      after.Worth later ∧
        later ≤ total +
          (outputs.map fun output =>
            output.amount.toInt).sum := by
  induction outputs generalizing coins total index with
  | nil =>
      cases hAdd
      exact ⟨total, hWorth, by simp⟩
  | cons output outputs ih =>
      have hHere := hAmounts output (List.mem_cons_self ..)
      have hThere := fun other hOther =>
        hAmounts other (List.mem_cons_of_mem _ hOther)
      rw [List.map_cons, List.sum_cons]
      unfold Utxo.addOutputs at hAdd
      split at hAdd
      · split at hAdd
        · cases hAdd
        · rename_i middle hFirst
          rcases ih (hWorth.add hFirst) hThere hAdd with
            ⟨later, hLater, hLe⟩
          exact ⟨later, hLater, by simp only at hLe; omega⟩
      · rcases ih hWorth hThere hAdd with
          ⟨later, hLater, hLe⟩
        exact ⟨later, hLater, by omega⟩

end Worth

end Utxo

------------------------------------------------------------
-- Exact Sums
------------------------------------------------------------

namespace Exact

theorem sumAmounts_some
    {total result : Int}
    {amounts : List Int64}
    (hSum : sumAmounts total amounts = some result) :
    result = total + (amounts.map Int64.toInt).sum ∧
      ∀ amount ∈ amounts, 0 ≤ amount.toInt := by
  induction amounts generalizing total with
  | nil =>
      cases hSum
      simp
  | cons amount rest ih =>
      unfold sumAmounts at hSum
      split at hSum
      · rename_i hValid
        rw [Bool.and_eq_true] at hValid
        rcases ih hSum with ⟨hResult, hRest⟩
        constructor
        · rw [hResult, List.map_cons, List.sum_cons]
          omega
        · intro other hOther
          rcases List.mem_cons.mp hOther with rfl | hMember
          · exact ((isValidAmount_iff _).mp hValid.1).1
          · exact hRest other hMember
      · cases hSum

/- What is paid comes out of what is spent. -/
theorem transactionFee_ok
    {tx : Transaction}
    {spentCoins : List Coin}
    {fee : Int}
    (hFee : transactionFee tx spentCoins = .ok fee) :
    fee =
        (spentCoins.map fun coin =>
          coin.output.amount.toInt).sum -
          (tx.outputs.map fun output =>
            output.amount.toInt).sum ∧
      ∀ output ∈ tx.outputs, 0 ≤ output.amount.toInt := by
  unfold transactionFee at hFee
  simp only [except_bind_eq_ok] at hFee
  rcases hFee with ⟨-, -, -, -, hFee⟩
  split at hFee
  · cases hFee
  rename_i spent hSpent
  split at hFee
  · cases hFee
  rename_i paid hPaid
  split at hFee
  · cases hFee
  cases hFee
  rcases sumAmounts_some hSpent with ⟨rfl, -⟩
  rcases sumAmounts_some hPaid with ⟨rfl, hAmounts⟩
  constructor
  · simp [List.map_map, Function.comp_def]
  · intro output hOutput
    exact hAmounts output.amount
      (List.mem_map_of_mem hOutput)

/- The fee in machine numbers is what is left over. -/
theorem toInt_transactionFee
    {tx : Transaction}
    {spentCoins : List Coin}
    {fee : Int64}
    (hFee :
      Amarian.transactionFee tx spentCoins = .ok fee) :
    fee.toInt =
        (spentCoins.map fun coin =>
          coin.output.amount.toInt).sum -
          (tx.outputs.map fun output =>
            output.amount.toInt).sum ∧
      ∀ output ∈ tx.outputs, 0 ≤ output.amount.toInt := by
  have hRel := transactionFee_rel tx spentCoins
  rw [hFee] at hRel
  rcases hRel.of_ok with ⟨exact, hExact, -, hSame⟩
  rw [hSame]
  exact transactionFee_ok hExact

theorem checkCoinbaseAmount_ok
    {block : Block}
    {coinbase : Transaction}
    {txs : List Transaction}
    {totalFees : Int}
    {params : ChainParams}
    (hBlock : block.transactions = coinbase :: txs)
    (hCheck :
      checkCoinbaseAmount block totalFees params =
        .ok ()) :
    (coinbase.outputs.map fun output =>
        output.amount.toInt).sum ≤
        (blockReward block.header.height
          params.issuance).toInt + totalFees ∧
      ∀ output ∈ coinbase.outputs,
        0 ≤ output.amount.toInt := by
  unfold checkCoinbaseAmount at hCheck
  simp only [hBlock, except_bind_eq_ok] at hCheck
  rcases hCheck with ⟨-, -, -, -, hCheck⟩
  split at hCheck
  · cases hCheck
  rename_i claimed hClaimed
  split at hCheck
  · cases hCheck
  rename_i hLe
  rcases sumAmounts_some hClaimed with ⟨rfl, hAmounts⟩
  constructor
  · simpa [List.map_map, Function.comp_def] using hLe
  · intro output hOutput
    exact hAmounts output.amount
      (List.mem_map_of_mem hOutput)

end Exact

------------------------------------------------------------
-- Conservation
------------------------------------------------------------

namespace Utxo.Worth

variable {c : Crypto} {params : ChainParams}
variable {coins after : Utxo} {total : Int}

/- Spending takes the fees out of the set, or more. -/
theorem connectSpends
    (hWorth : coins.Worth total)
    {height : UInt32}
    {txs : List Transaction}
    {fees later : Int}
    {undo : List TxUndo}
    (hConnect :
      Exact.connectSpends c params height txs fees coins =
        .ok (undo, later, after)) :
    ∃ left,
      after.Worth left ∧ left + later ≤ total + fees := by
  induction txs generalizing coins total fees undo with
  | nil =>
      cases hConnect
      exact ⟨total, hWorth, Int.le_refl _⟩
  | cons tx txs ih =>
      unfold Exact.connectSpends at hConnect
      simp only [except_bind_eq_ok] at hConnect
      rcases hConnect with
        ⟨-, -, ⟨spent, middle⟩, hSpend, fee, hFee, sum, hSum,
          created, hCreate, ⟨rest, last, final⟩, hRest,
          hDone⟩
      cases hDone
      have hPaid :
          Exact.transactionFee tx spent = .ok fee := by
        unfold Exact.checkTransactionInputs at hFee
        simp only [except_bind_eq_ok] at hFee
        rcases hFee with
          ⟨-, -, -, -, -, -, paid, hPaid, -, -, hSame⟩
        cases hSame
        exact hPaid
      have hTotal : sum = fees + fee := by
        unfold Exact.accumulateFee at hSum
        split at hSum
        · cases hSum
          rfl
        · cases hSum
      rcases Exact.transactionFee_ok hPaid with
        ⟨rfl, hAmounts⟩
      rcases (hWorth.spendInputs hSpend).addOutputs hAmounts
        hCreate with ⟨held, hHeld, hLe⟩
      rcases ih hHeld hRest with ⟨left, hLeft, hFinal⟩
      exact ⟨left, hLeft, by omega⟩

/- A block adds no more than its reward. -/
theorem connectBlock
    (hReward : Exact.RewardFits params)
    (hWorth : coins.Worth total)
    {block : Block}
    {result : ConnectResult}
    (hConnect :
      Utxo.connectBlock c params block coins =
        .ok (result, after)) :
    ∃ later,
      after.Worth later ∧
        later ≤ total +
          (blockReward block.header.height
            params.issuance).toInt := by
  have hExact : Exact.connectBlock c params block coins =
      .ok (result.undo, result.totalFees.toInt, after) := by
    rw [← Exact.connectBlock_eq c hReward, hConnect]
    rfl
  unfold Exact.connectBlock at hExact
  cases hBlock : block.transactions with
  | nil =>
      rw [hBlock] at hExact
      cases hExact
  | cons coinbase txs =>
      rw [hBlock] at hExact
      simp only [except_bind_eq_ok] at hExact
      rcases hExact with
        ⟨-, -, minted, hMint, ⟨undo, fees, last⟩, hSpends,
          ⟨⟩, hAmount, hDone⟩
      simp only [Except.ok.injEq, Prod.mk.injEq] at hDone
      rcases hDone with ⟨-, rfl, rfl⟩
      rcases Exact.checkCoinbaseAmount_ok hBlock hAmount with
        ⟨hClaimed, hAmounts⟩
      rcases except_bind_eq_ok.mp hMint with ⟨-, -, hOutputs⟩
      rcases hWorth.addOutputs hAmounts hOutputs with
        ⟨held, hHeld, hLe⟩
      rcases hHeld.connectSpends hSpends with
        ⟨left, hLeft, hFinal⟩
      simp only at hClaimed
      exact ⟨left, hLeft, by omega⟩

end Utxo.Worth

end Amarian
