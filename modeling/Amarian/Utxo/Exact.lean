import Amarian.Lib.Except
import Amarian.Utxo.Ledger

/-
  Connecting a block with unbounded integers.

  This is what the amounts are meant to be: the loops of the
  rules, with integers that cannot wrap.  The rules as they
  are compute the same verdicts and the same sums, because
  no running total ever leaves the money range.

  Key definitions include:
    * `Exact.sumAmounts`
    * `Exact.transactionFee`
    * `Exact.connectBlock`

  Key theorems include:
    * `Exact.checkOutputAmounts_eq`
    * `Exact.connectBlock_eq`
-/

------------------------------------------------------------
-- The Rules Over Integers
------------------------------------------------------------

namespace Amarian

namespace Exact

/- The same bounds on exact integers. -/
def isValidAmount
    (amount : Int) : Bool :=
  decide (0 ≤ amount) && decide (amount ≤ maxMoney.toInt)

/- Each output, and each sum on the way. -/
def checkOutputAmounts : Int → List TxOutput → Verdict
  | _, [] => .ok ()
  | total, output :: rest =>
      if !isValidAmount output.amount.toInt then
        .error .txAmountOutOfRange
      else if !isValidAmount (total + output.amount.toInt)
      then
        .error .txOutputSumOutOfRange
      else
        checkOutputAmounts (total + output.amount.toInt) rest

/- No sum where one step is out of range. -/
def sumAmounts
    (total : Int) : List Int64 → Option Int
  | [] => some total
  | amount :: rest =>
      if isValidAmount amount.toInt &&
          isValidAmount (total + amount.toInt) then
        sumAmounts (total + amount.toInt) rest
      else
        none

/- What goes in less what comes out. -/
def transactionFee
    (tx : Transaction)
    (spentCoins : List Coin) :
    Except ValidationError Int := do
  rejectIf tx.isCoinbase .txCoinbaseAuthorisesNothing
  rejectIf (spentCoins.length != tx.inputs.length)
    .txSpentOutputCountMismatch
  match sumAmounts 0
      (spentCoins.map fun coin => coin.output.amount) with
  | none => .error .txInputSumOutOfRange
  | some spent =>
      match sumAmounts 0
          (tx.outputs.map TxOutput.amount) with
      | none => .error .txOutputSumOutOfRange
      | some paid =>
          if paid > spent then
            .error .txOutputsExceedInputs
          else
            .ok (spent - paid)

/- Fees are summed under the same bound. -/
def accumulateFee
    (totalFees fee : Int) : Except ValidationError Int :=
  if isValidAmount (totalFees + fee) then
    .ok (totalFees + fee)
  else
    .error .blockFeesOutOfRange

/- The reward and the fees are the most it may pay. -/
def checkCoinbaseAmount
    (block : Block)
    (totalFees : Int)
    (params : ChainParams) : Verdict :=
  match block.transactions with
  | [] => .error .blockFirstTxNotCoinbase
  | coinbase :: _ => do
      rejectIf (!coinbase.isCoinbase)
        .blockFirstTxNotCoinbase
      rejectIf (!isValidAmount totalFees)
        .blockFeesOutOfRange
      match sumAmounts 0
          (coinbase.outputs.map TxOutput.amount) with
      | none => .error .txOutputSumOutOfRange
      | some claimed =>
          if claimed >
              (blockReward block.header.height
                params.issuance).toInt + totalFees then
            .error .blockCoinbasePaysTooMuch
          else
            .ok ()

section Connect

variable (c : Crypto) (params : ChainParams)

/- The checks that need the coins spent. -/
def checkTransactionInputs
    (tx : Transaction)
    (spentCoins : List Coin)
    (spendHeight : UInt32) :
    Except ValidationError Int := do
  rejectIf tx.isCoinbase .txCoinbaseAuthorisesNothing
  rejectIf (spentCoins.length != tx.inputs.length)
    .txSpentOutputCountMismatch
  rejectIf (spentCoins.any (isImmature params spendHeight))
    .txCoinbaseNotMature
  let fee ← transactionFee tx spentCoins
  checkSpendAuthorisation c tx spentCoins params
  return fee

/- Everything but the coinbase, in order. -/
def connectSpends
    (height : UInt32) :
    List Transaction → Int → Utxo →
      Except ValidationError (List TxUndo × Int × Utxo)
  | [], totalFees, coins => .ok ([], totalFees, coins)
  | tx :: txs, totalFees, coins => do
      rejectIf tx.isCoinbase .blockMultipleCoinbases
      let (spent, coins) ← Utxo.spendInputs tx.inputs coins
      let fee ←
        checkTransactionInputs c params tx spent height
      let totalFees ← accumulateFee totalFees fee
      let coins ← Utxo.addOutputs (tx.txid c) height false 0
        tx.outputs coins
      let (undo, totalFees, coins) ←
        connectSpends height txs totalFees coins
      .ok (⟨spent⟩ :: undo, totalFees, coins)

/- The undo record, the fees and the coins after. -/
def connectBlock
    (block : Block)
    (coins : Utxo) :
    Except ValidationError (BlockUndo × Int × Utxo) :=
  match block.transactions with
  | [] => .error .blockNoTransactions
  | first :: rest => do
      rejectIf (!first.isCoinbase) .blockFirstTxNotCoinbase
      let coins ← Utxo.connectCoinbase c block.header.height
        first coins
      let (undo, totalFees, coins) ←
        connectSpends c params block.header.height rest 0
          coins
      checkCoinbaseAmount block totalFees params
      .ok (⟨undo⟩, totalFees, coins)

end Connect

------------------------------------------------------------
-- Nothing Wraps Around
------------------------------------------------------------

theorem isValidAmount_iff
    (amount : Int) :
    isValidAmount amount = true ↔
      0 ≤ amount ∧ amount ≤ 83999999932170000 := by
  simp only [isValidAmount, Bool.and_eq_true,
    decide_eq_true_eq]
  exact Iff.rfl

theorem isValidAmount_toInt
    (amount : Int64) :
    isValidAmount amount.toInt =
      Amarian.isValidAmount amount := by
  rw [Bool.eq_iff_iff, isValidAmount_iff,
    Amarian.isValidAmount_iff]

/- Two amounts in the money range are added exactly. -/
theorem checkedAdd_of_valid
    {total amount : Int64}
    (hTotal : Amarian.isValidAmount total = true)
    (hAmount : Amarian.isValidAmount amount = true) :
    ∃ next,
      checkedAdd total amount = some next ∧
        next.toInt = total.toInt + amount.toInt := by
  rw [Amarian.isValidAmount_iff] at hTotal hAmount
  have hFits : FitsInt64 (total.toInt + amount.toInt) := by
    unfold FitsInt64
    omega
  refine ⟨total + amount, ?_, toInt_add_of_fits hFits⟩
  rw [checkedAdd, if_pos hFits]

theorem checkOutputAmounts_eq
    {total : Int64}
    (hTotal : Amarian.isValidAmount total = true)
    (outputs : List TxOutput) :
    Amarian.checkOutputAmounts total outputs =
      checkOutputAmounts total.toInt outputs := by
  induction outputs generalizing total with
  | nil => rfl
  | cons output rest ih =>
      rw [Amarian.checkOutputAmounts, checkOutputAmounts,
        isValidAmount_toInt]
      cases hAmount : Amarian.isValidAmount output.amount with
      | false => rfl
      | true =>
          rcases checkedAdd_of_valid hTotal hAmount with
            ⟨next, hAdd, hNext⟩
          simp only [Bool.not_true, Bool.false_eq_true,
            if_false, hAdd, ← hNext, isValidAmount_toInt]
          cases hValid : Amarian.isValidAmount next with
          | false => rfl
          | true => exact ih hValid

theorem sumAmounts_eq
    {total : Int64}
    (hTotal : Amarian.isValidAmount total = true)
    (amounts : List Int64) :
    sumAmounts total.toInt amounts =
      (Amarian.sumAmounts total amounts).map
        Int64.toInt := by
  induction amounts generalizing total with
  | nil => rfl
  | cons amount rest ih =>
      rw [Amarian.sumAmounts, sumAmounts,
        isValidAmount_toInt]
      cases hAmount : Amarian.isValidAmount amount with
      | false => rfl
      | true =>
          rcases checkedAdd_of_valid hTotal hAmount with
            ⟨next, hAdd, hNext⟩
          simp only [Bool.true_and, if_true, hAdd, ← hNext,
            isValidAmount_toInt]
          cases hValid : Amarian.isValidAmount next with
          | false => rfl
          | true => exact ih hValid

/- An amount and the integer it stands for. -/
def Denotes
    (amount : Int64)
    (exact : Int) : Prop :=
  Amarian.isValidAmount amount = true ∧
    amount.toInt = exact

theorem denotes_zero :
    Denotes 0 0 :=
  ⟨by decide, rfl⟩

/- Both sums are reported and stand for each other. -/
theorem sumAmounts_cases
    (amounts : List Int64) :
    (Amarian.sumAmounts 0 amounts = none ∧
        sumAmounts 0 amounts = none) ∨
      ∃ sum exact,
        Amarian.sumAmounts 0 amounts = some sum ∧
          sumAmounts 0 amounts = some exact ∧
          Denotes sum exact := by
  have hEq : sumAmounts 0 amounts =
      (Amarian.sumAmounts 0 amounts).map Int64.toInt :=
    sumAmounts_eq denotes_zero.1 amounts
  cases hSum : Amarian.sumAmounts 0 amounts with
  | none => simp [hEq, hSum]
  | some sum =>
      refine Or.inr ⟨sum, sum.toInt, rfl, ?_, ?_, rfl⟩
      · rw [hEq, hSum, Option.map_some]
      · exact sumAmounts_valid denotes_zero.1 hSum

theorem transactionFee_rel
    (tx : Transaction)
    (spentCoins : List Coin) :
    ExceptRel Denotes
      (Amarian.transactionFee tx spentCoins)
      (transactionFee tx spentCoins) := by
  unfold Amarian.transactionFee transactionFee
  refine (ExceptRel.refl _).bind fun _ _ _ => ?_
  refine (ExceptRel.refl _).bind fun _ _ _ => ?_
  rcases sumAmounts_cases
    (spentCoins.map fun coin => coin.output.amount) with
    ⟨hNone, hExact⟩ | ⟨spent, exactSpent, hSum, hExact, hSpent⟩
  · rw [hNone, hExact]
    exact .error _
  rw [hSum, hExact]
  rcases sumAmounts_cases
    (tx.outputs.map TxOutput.amount) with
    ⟨hNone, hExact⟩ | ⟨paid, exactPaid, hSum, hExact, hPaid⟩
  · rw [hNone, hExact]
    exact .error _
  rw [hSum, hExact]
  rcases hSpent with ⟨hSpent, rfl⟩
  rcases hPaid with ⟨hPaid, rfl⟩
  simp only [GT.gt, Int64.lt_iff_toInt_lt]
  split
  · exact .error _
  · rename_i hLe
    rw [Amarian.isValidAmount_iff] at hSpent hPaid
    have hFits : FitsInt64 (spent.toInt - paid.toInt) := by
      unfold FitsInt64
      omega
    have hSub := toInt_sub_of_fits hFits
    refine .ok ⟨?_, hSub⟩
    rw [Amarian.isValidAmount_iff, hSub]
    omega

theorem accumulateFee_rel
    {totalFees fee : Int64}
    {exactTotal exactFee : Int}
    (hTotal : Denotes totalFees exactTotal)
    (hFee : Denotes fee exactFee) :
    ExceptRel Denotes
      (Amarian.accumulateFee totalFees fee)
      (accumulateFee exactTotal exactFee) := by
  rcases hTotal with ⟨hTotal, rfl⟩
  rcases hFee with ⟨hFee, rfl⟩
  rcases checkedAdd_of_valid hTotal hFee with
    ⟨next, hAdd, hNext⟩
  rw [Amarian.accumulateFee, accumulateFee, hAdd, ← hNext,
    isValidAmount_toInt]
  simp only
  split
  · rename_i hValid
    exact .ok ⟨hValid, rfl⟩
  · exact .error _

/- A reward small enough for any fees to be added to it. -/
def RewardFits
    (params : ChainParams) : Prop :=
  ∀ height,
    0 ≤ (blockReward height params.issuance).toInt ∧
      (blockReward height params.issuance).toInt ≤ 2 ^ 62

theorem checkCoinbaseAmount_eq
    {params : ChainParams}
    (hReward : RewardFits params)
    (block : Block)
    {totalFees : Int64}
    {exactTotal : Int}
    (hTotal : Denotes totalFees exactTotal) :
    Amarian.checkCoinbaseAmount block totalFees params =
      checkCoinbaseAmount block exactTotal params := by
  rcases hTotal with ⟨hTotal, rfl⟩
  unfold Amarian.checkCoinbaseAmount checkCoinbaseAmount
  cases block.transactions with
  | nil => rfl
  | cons coinbase txs =>
      simp only [isValidAmount_toInt]
      congr 1
      funext _
      congr 1
      funext _
      rcases sumAmounts_cases
        (coinbase.outputs.map TxOutput.amount) with
        ⟨hNone, hExact⟩ | ⟨claimed, _, hSum, hExact, -, rfl⟩
      · rw [hNone, hExact]
      rw [hSum, hExact]
      have hBound := hReward block.header.height
      rw [Amarian.isValidAmount_iff] at hTotal
      have hFits : FitsInt64
          ((blockReward block.header.height
            params.issuance).toInt + totalFees.toInt) := by
        unfold FitsInt64
        omega
      simp only [checkedAdd, if_pos hFits, GT.gt,
        Int64.lt_iff_toInt_lt, toInt_add_of_fits hFits]

section Connect

variable (c : Crypto) (params : ChainParams)

theorem checkTransactionInputs_rel
    (tx : Transaction)
    (spentCoins : List Coin)
    (spendHeight : UInt32) :
    ExceptRel Denotes
      (Amarian.checkTransactionInputs c tx spentCoins
        spendHeight params)
      (checkTransactionInputs c params tx spentCoins
        spendHeight) := by
  unfold Amarian.checkTransactionInputs
    checkTransactionInputs
  refine (ExceptRel.refl _).bind fun _ _ _ => ?_
  refine (ExceptRel.refl _).bind fun _ _ _ => ?_
  refine (ExceptRel.refl _).bind fun _ _ _ => ?_
  refine (transactionFee_rel tx spentCoins).bind ?_
  intro fee exactFee hFee
  refine (ExceptRel.refl _).bind fun _ _ _ => ?_
  exact .ok hFee

theorem connectSpends_rel
    (height : UInt32)
    (txs : List Transaction)
    {totalFees : Int64}
    {exactTotal : Int}
    (hTotal : Denotes totalFees exactTotal)
    (coins : Utxo) :
    ExceptRel
      (fun done exact =>
        done.1 = exact.1 ∧ Denotes done.2.1 exact.2.1 ∧
          done.2.2 = exact.2.2)
      (Utxo.connectSpends c params height txs totalFees
        coins)
      (connectSpends c params height txs exactTotal
        coins) := by
  induction txs generalizing totalFees exactTotal coins with
  | nil => exact .ok ⟨rfl, hTotal, rfl⟩
  | cons tx txs ih =>
      unfold Utxo.connectSpends connectSpends
      refine (ExceptRel.refl _).bind fun _ _ _ => ?_
      refine (ExceptRel.refl _).bind ?_
      rintro ⟨spent, coins⟩ _ rfl
      refine (checkTransactionInputs_rel c params tx spent
        height).bind ?_
      intro fee exactFee hFee
      refine (accumulateFee_rel hTotal hFee).bind ?_
      intro total exactTotal hTotal
      refine (ExceptRel.refl _).bind ?_
      rintro coins _ rfl
      refine (ih hTotal coins).bind ?_
      rintro ⟨undo, total, coins⟩ ⟨_, exactTotal, _⟩
        ⟨rfl, hTotal, rfl⟩
      exact .ok ⟨rfl, hTotal, rfl⟩

variable {params}

/-
  On every block and every set of coins the rules give the
  verdict, the fees and the coins that unbounded integers
  would give.
-/
theorem connectBlock_eq
    (hReward : RewardFits params)
    (block : Block)
    (coins : Utxo) :
    (Utxo.connectBlock c params block coins).map
        (fun done =>
          (done.1.undo, done.1.totalFees.toInt, done.2)) =
      connectBlock c params block coins := by
  refine ExceptRel.map_eq ?_
  unfold Utxo.connectBlock connectBlock
  cases block.transactions with
  | nil => exact .error _
  | cons first rest =>
      simp only
      refine (ExceptRel.refl _).bind fun _ _ _ => ?_
      refine (ExceptRel.refl _).bind ?_
      rintro coins _ rfl
      refine (connectSpends_rel c params _ rest
        denotes_zero coins).bind ?_
      rintro ⟨undo, total, coins⟩ ⟨_, exactTotal, _⟩
        ⟨rfl, hTotal, rfl⟩
      rw [checkCoinbaseAmount_eq hReward block hTotal]
      refine (ExceptRel.refl _).bind fun _ _ _ => ?_
      exact .ok (by rw [hTotal.2])

end Connect

end Exact

end Amarian
