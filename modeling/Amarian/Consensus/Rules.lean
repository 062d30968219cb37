import Amarian.Consensus.Validation
import Amarian.Lib.Except
import Mathlib.Algebra.Order.BigOperators.Group.List

/-
  What it means to have passed the context-free rules, one
  statement for each check.

  Key theorems include:
    * `checkSpendCondition_eq_ok`
    * `checkWitness_eq_ok`
    * `checkTransaction_eq_ok`
    * `sumAmounts_of_le`
    * `transactionFee_valid`
    * `tooFarAhead_eq_false_iff`
    * `checkBlock_eq_ok`
-/

------------------------------------------------------------
-- Conditions And Witnesses
------------------------------------------------------------

namespace Amarian

variable {params : ChainParams}

/- The keys of a condition whose rules are known. -/
theorem checkSpendCondition_eq_ok
    {condition : SpendCondition} :
    checkSpendCondition condition params = .ok () ↔
      condition.version ≠ conditionVersionReserved ∧
        (condition.version = conditionVersionThreshold →
          condition.keys ≠ [] ∧
            condition.keys.length ≤
              params.blockLimits.tx.maxKeys ∧
            condition.threshold ≠ 0 ∧
            condition.threshold.toNat ≤
              condition.keys.length ∧
            checkKeys none condition.keys = .ok ()) := by
  unfold checkSpendCondition
  by_cases hVersion :
      condition.version = conditionVersionThreshold
  · simp only [hVersion, except_check_eq_ok, rejectIf_eq_ok,
      ne_eq, not_true_eq_false, if_false, forall_true_left,
      List.isEmpty_eq_false_iff, decide_eq_false_iff_not,
      beq_eq_false_iff_ne, not_lt, gt_iff_lt]
  · simp only [hVersion, except_check_eq_ok, rejectIf_eq_ok,
      ne_eq, not_false_eq_true, if_true,
      beq_eq_false_iff_ne, false_implies, and_true]
    simp [pure, Except.pure]

theorem checkWitness_eq_ok
    {witness : Witness} :
    checkWitness witness params = .ok () ↔
      checkSpendCondition witness.condition params = .ok () ∧
        (∀ signature ∈ witness.signatures,
          signature.scheme ≠ schemeReserved) ∧
        (witness.condition.version =
            conditionVersionThreshold →
          witness.signatures.length =
              witness.condition.threshold.toNat ∧
            ∀ signature ∈ witness.signatures,
              hasWrongSignatureSize signature = false) := by
  unfold checkWitness
  by_cases hVersion :
      witness.condition.version = conditionVersionThreshold
  · simp only [hVersion, except_check_eq_ok, rejectIf_eq_ok,
      BEq.rfl, Bool.true_and, bne_eq_false_iff_eq,
      List.any_eq_false, beq_iff_eq,
      forall_true_left, Bool.not_eq_true, ne_eq]
    constructor
    · rintro ⟨hFirst, hCount, hSchemes, hSizes⟩
      exact ⟨hFirst, hSchemes, hCount, hSizes⟩
    · rintro ⟨hFirst, hSchemes, hCount, hSizes⟩
      exact ⟨hFirst, hCount, hSchemes, hSizes⟩
  · simp [hVersion, except_check_eq_ok]

------------------------------------------------------------
-- Transactions
------------------------------------------------------------

theorem checkTransactionForm_eq_ok
    {tx : Transaction} :
    checkTransactionForm tx params = .ok () ↔
      (tx.isCoinbase = true →
        tx.witnesses = [] ∧
          tx.coinbaseData.length ≤
            params.blockLimits.tx.maxCoinbaseDataSize) ∧
        (tx.isCoinbase = false →
          tx.coinbaseData = [] ∧
            tx.witnesses.length = tx.inputs.length ∧
            ∀ input ∈ tx.inputs,
              input.outpoint.isNull = false) := by
  unfold checkTransactionForm
  cases hCoinbase : tx.isCoinbase with
  | true => simp [except_check_eq_ok]
  | false =>
      simp [except_check_eq_ok]

theorem checkTransaction_eq_ok
    {tx : Transaction} :
    checkTransaction tx params = .ok () ↔
      tx.inputs ≠ [] ∧
        tx.outputs ≠ [] ∧
        tx.inputs.length ≤
          params.blockLimits.tx.maxInputs ∧
        tx.outputs.length ≤
          params.blockLimits.tx.maxOutputs ∧
        checkTransactionForm tx params = .ok () ∧
        checkOutputAmounts 0 tx.outputs = .ok () ∧
        (tx.isCoinbase = false →
          (tx.inputs.map TxInput.outpoint).Nodup ∧
            ∀ witness ∈ tx.witnesses,
              checkWitness witness params = .ok ()) ∧
        tx.weight ≤ params.maxBlockWeight := by
  unfold checkTransaction
  cases hCoinbase : tx.isCoinbase with
  | true =>
      simp [except_check_eq_ok]
  | false =>
      simp only [except_check_eq_ok, rejectIf_eq_ok,
        Bool.not_false, if_true,
        checkAll_eq_ok, List.isEmpty_eq_false_iff,
        decide_eq_false_iff_not, not_lt, gt_iff_lt,
        Bool.not_eq_false', decide_eq_true_eq,
        forall_true_left, ne_eq, and_assoc]

theorem checkOutputAmounts_valid
    {total : Int64}
    {outputs : List TxOutput}
    (hAmounts : checkOutputAmounts total outputs = .ok ()) :
    ∀ output ∈ outputs,
      isValidAmount output.amount = true := by
  induction outputs generalizing total with
  | nil => simp
  | cons output rest ih =>
      unfold checkOutputAmounts at hAmounts
      split at hAmounts
      · cases hAmounts
      · rename_i hAmount
        rw [Bool.not_eq_true, Bool.not_eq_false'] at hAmount
        split at hAmounts
        · cases hAmounts
        · split at hAmounts
          · cases hAmounts
          · exact List.forall_mem_cons.mpr
              ⟨hAmount, ih hAmounts⟩

/- Amounts that stay within the range are summed up. -/
theorem sumAmounts_of_le
    {total : Int64}
    {amounts : List Int64}
    (hTotal : 0 ≤ total.toInt)
    (hNonneg : ∀ amount ∈ amounts, 0 ≤ amount.toInt)
    (hSum :
      total.toInt + (amounts.map Int64.toInt).sum ≤
        maxMoney.toInt) :
    ∃ result, sumAmounts total amounts = some result := by
  induction amounts generalizing total with
  | nil => exact ⟨total, rfl⟩
  | cons amount rest ih =>
      rw [List.forall_mem_cons] at hNonneg
      rw [List.map_cons, List.sum_cons] at hSum
      have hRest : 0 ≤ (rest.map Int64.toInt).sum := by
        refine List.sum_nonneg ?_
        intro value hValue
        rcases List.mem_map.mp hValue with ⟨other, hOther, rfl⟩
        exact hNonneg.2 other hOther
      have hMoney : maxMoney.toInt = 83999999932170000 := rfl
      have hFits : FitsInt64 (total.toInt + amount.toInt) :=
        ⟨by omega, by omega⟩
      have hNext := toInt_add_of_fits hFits
      have hAmount : isValidAmount amount = true :=
        (isValidAmount_iff _).mpr ⟨hNonneg.1, by omega⟩
      have hValid : isValidAmount (total + amount) = true :=
        (isValidAmount_iff _).mpr ⟨by omega, by omega⟩
      rw [sumAmounts, if_pos hAmount, checkedAdd,
        if_pos hFits]
      dsimp only
      rw [if_pos hValid]
      exact ih (by omega) hNonneg.2 (by omega)

/- Outputs that stay within the range pass. -/
theorem checkOutputAmounts_of_le
    {total : Int64}
    {outputs : List TxOutput}
    (hTotal : 0 ≤ total.toInt)
    (hNonneg : ∀ output ∈ outputs, 0 ≤ output.amount.toInt)
    (hSum :
      total.toInt +
          (outputs.map fun output =>
            output.amount.toInt).sum ≤
        maxMoney.toInt) :
    checkOutputAmounts total outputs = .ok () := by
  induction outputs generalizing total with
  | nil => rfl
  | cons output rest ih =>
      rw [List.forall_mem_cons] at hNonneg
      rw [List.map_cons, List.sum_cons] at hSum
      have hRest :
          0 ≤ (rest.map fun output =>
            output.amount.toInt).sum := by
        refine List.sum_nonneg ?_
        intro value hValue
        rcases List.mem_map.mp hValue with ⟨other, hOther, rfl⟩
        exact hNonneg.2 other hOther
      have hMoney : maxMoney.toInt = 83999999932170000 := rfl
      have hFits :
          FitsInt64 (total.toInt + output.amount.toInt) :=
        ⟨by omega, by omega⟩
      have hNext := toInt_add_of_fits hFits
      have hAmount : isValidAmount output.amount = true :=
        (isValidAmount_iff _).mpr ⟨hNonneg.1, by omega⟩
      have hValid :
          isValidAmount (total + output.amount) = true :=
        (isValidAmount_iff _).mpr ⟨by omega, by omega⟩
      rw [checkOutputAmounts, hAmount, checkedAdd,
        if_pos hFits]
      dsimp only
      rw [hValid]
      exact ih (by omega) hNonneg.2 (by omega)
------------------------------------------------------------
-- Fees
------------------------------------------------------------

theorem transactionFee_valid
    {tx : Transaction}
    {spentCoins : List Coin}
    {fee : Int64}
    (hFee : transactionFee tx spentCoins = .ok fee) :
    isValidAmount fee = true := by
  unfold transactionFee at hFee
  rw [except_check_eq_ok, except_check_eq_ok] at hFee
  rcases hFee with ⟨-, -, hFee⟩
  split at hFee
  · cases hFee
  · rename_i spent hSpent
    split at hFee
    · cases hFee
    · rename_i paid hPaid
      split at hFee
      · cases hFee
      · rename_i hCovered
        cases hFee
        have hZero : isValidAmount 0 = true := rfl
        have hIn := (isValidAmount_iff _).mp
          (sumAmounts_valid hZero hSpent)
        have hOut := (isValidAmount_iff _).mp
          (sumAmounts_valid hZero hPaid)
        rw [gt_iff_lt, Int64.lt_iff_toInt_lt, not_lt]
          at hCovered
        rw [isValidAmount_iff, toInt_sub_of_fits]
        · omega
        · unfold FitsInt64
          omega

theorem checkTransactionInputs_fee
    {c : Crypto}
    {tx : Transaction}
    {spentCoins : List Coin}
    {spendHeight : UInt32}
    {params : ChainParams}
    {fee : Int64}
    (hInputs :
      checkTransactionInputs c tx spentCoins spendHeight
        params = .ok fee) :
    transactionFee tx spentCoins = .ok fee := by
  unfold checkTransactionInputs at hInputs
  rw [except_check_eq_ok, except_check_eq_ok,
    except_check_eq_ok] at hInputs
  rcases hInputs with ⟨-, -, -, hInputs⟩
  rcases except_bind_eq_ok.mp hInputs with
    ⟨found, hFound, hRest⟩
  rw [except_check_eq_ok] at hRest
  cases hRest.2
  exact hFound

------------------------------------------------------------
-- Blocks
------------------------------------------------------------

theorem checkBlock_eq_ok
    {c : Crypto}
    {block : Block} :
    checkBlock c block params = .ok () ↔
      checkBlockHeader c block.header params = .ok () ∧
        block.transactions ≠ [] ∧
        block.transactions.length ≤
          params.blockLimits.maxTransactions ∧
        checkCoinbasePlacement block = .ok () ∧
        block.weight ≤ params.maxBlockWeight ∧
        block.computeMerkleRoot c =
          some block.header.merkleRoot ∧
        (∀ tx ∈ block.transactions,
          checkTransaction tx params = .ok ()) ∧
        block.spentOutpoints.Nodup := by
  unfold checkBlock
  simp only [except_check_eq_ok, rejectIf_eq_ok,
    checkAll_eq_ok,
    List.isEmpty_eq_false_iff, decide_eq_false_iff_not,
    not_lt, gt_iff_lt, bne_eq_false_iff_eq,
    Bool.not_eq_false', decide_eq_true_eq, ne_eq]

------------------------------------------------------------
-- Clocks
------------------------------------------------------------

theorem tooFarAhead_eq_false_iff
    {timestamp now : Int64} :
    tooFarAhead timestamp now = false ↔
      FitsInt64
          (now.toInt + maxFutureBlockSeconds.toInt) ∧
        timestamp.toInt ≤
          now.toInt + maxFutureBlockSeconds.toInt := by
  unfold tooFarAhead checkedAdd
  by_cases hRoom :
      FitsInt64 (now.toInt + maxFutureBlockSeconds.toInt)
  · rw [if_pos hRoom]
    dsimp only
    rw [decide_eq_false_iff_not, gt_iff_lt,
      Int64.lt_iff_toInt_lt, toInt_add_of_fits hRoom,
      Int.not_lt]
    exact (and_iff_right hRoom).symm
  · rw [if_neg hRoom]
    exact iff_of_false nofun fun hBoth => hRoom hBoth.1

/- A clock that is not too far behind lets a header in. -/
theorem tooFarAhead_eq_false
    {timestamp now : Int64}
    (hClock :
      timestamp.toInt ≤
        now.toInt + maxFutureBlockSeconds.toInt)
    (hRoom :
      FitsInt64
        (now.toInt + maxFutureBlockSeconds.toInt)) :
    tooFarAhead timestamp now = false :=
  tooFarAhead_eq_false_iff.mpr ⟨hRoom, hClock⟩

/- And so does a later one, short of the last hour. -/
theorem tooFarAhead_later
    {timestamp now later : Int64}
    (hRoom :
      FitsInt64
        (later.toInt + maxFutureBlockSeconds.toInt))
    (hLater : now ≤ later)
    (hClock : tooFarAhead timestamp now = false) :
    tooFarAhead timestamp later = false := by
  have hFirst := (tooFarAhead_eq_false_iff.mp hClock).2
  rw [Int64.le_iff_toInt_le] at hLater
  exact tooFarAhead_eq_false (by omega) hRoom

end Amarian
