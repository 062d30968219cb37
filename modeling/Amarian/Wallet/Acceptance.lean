import Amarian.Mempool.Arrivals
import Amarian.Wallet.Signing

/-
  When the pool takes a payment.

  Key definitions include:
    * `Wallet.maxPaymentInputs`
    * `Wallet.Paying`

  Key theorems include:
    * `Wallet.Paying.checkTransaction_iff`
    * `Wallet.Paying.accept_iff`
-/

------------------------------------------------------------
-- Payments
------------------------------------------------------------

namespace Amarian

namespace Wallet

/- As many inputs as a payment has room for in a block. -/
def maxPaymentInputs : Nat := 7517

def paidOut
    (tx : Transaction) : Int :=
  (tx.outputs.map fun output => output.amount.toInt).sum

/-
  A signed payment from coins of the chain, whose inputs are
  worth at least the outputs and the estimated fee.
-/
structure Paying
    (coins : Utxo)
    (tx : Transaction)
    (entries : List UtxoEntry) : Prop where
  funded : entries ≠ []
  inputs : tx.inputs = entries.map TxBuilder.inputFor
  data : tx.coinbaseData = []
  counted : tx.witnesses.length = entries.length
  signed : ∀ witness ∈ tx.witnesses, SinglySigned witness
  pays : tx.outputs ≠ []
  few : tx.outputs.length ≤ 2
  programs :
    ∀ output ∈ tx.outputs,
      output.lock.program.length = 32
  amounts : ∀ output ∈ tx.outputs, 0 ≤ output.amount.toInt
  held :
    ∀ entry ∈ entries,
      coins entry.outpoint = some entry.coin
  once : (entries.map UtxoEntry.outpoint).Nodup
  real : ∀ entry ∈ entries, entry.outpoint.isNull = false
  values : ∀ entry ∈ entries, 0 ≤ entry.amount.toInt
  bounded : totalValue entries ≤ maxMoney.toInt
  fee :
    208 + 2564 * (entries.length : Int) + paidOut tx ≤
      totalValue entries

/- The sums of `Sign`, where nothing wraps around. -/
theorem toInt_sumOf
    {amounts : List Int64}
    (hNonneg : ∀ amount ∈ amounts, 0 ≤ amount.toInt)
    (hBounded :
      (amounts.map Int64.toInt).sum ≤ maxMoney.toInt) :
    (TxBuilder.sumOf amounts).toInt =
      (amounts.map Int64.toInt).sum := by
  have hMoney : maxMoney.toInt = 83999999932170000 := rfl
  exact toInt_foldl_add hNonneg (by omega)

/- What spends real coins is not taken for a coinbase. -/
theorem isCoinbase_inputFor
    {tx : Transaction}
    {entries : List UtxoEntry}
    (hInputs : tx.inputs = entries.map TxBuilder.inputFor)
    (hReal :
      ∀ entry ∈ entries, entry.outpoint.isNull = false) :
    tx.isCoinbase = false := by
  unfold Transaction.isCoinbase
  split
  · rename_i input hOne
    rw [hOne] at hInputs
    rcases entries with _ | ⟨entry, rest⟩
    · cases hInputs
    · rw [List.map_cons] at hInputs
      rw [(List.cons.inj hInputs).1]
      exact hReal entry List.mem_cons_self
  · rfl

namespace Paying

variable {coins : Utxo} {tx : Transaction}
variable {entries : List UtxoEntry}

theorem length_inputs
    (hPaying : Paying coins tx entries) :
    tx.inputs.length = entries.length := by
  rw [hPaying.inputs, List.length_map]

theorem outpoints
    (hPaying : Paying coins tx entries) :
    tx.inputs.map TxInput.outpoint =
      entries.map UtxoEntry.outpoint := by
  rw [hPaying.inputs, List.map_map]
  rfl

theorem isCoinbase
    (hPaying : Paying coins tx entries) :
    tx.isCoinbase = false :=
  isCoinbase_inputFor hPaying.inputs hPaying.real

theorem paidOut_nonneg
    (hPaying : Paying coins tx entries) :
    0 ≤ paidOut tx := by
  refine List.sum_nonneg ?_
  intro amount hAmount
  rcases List.mem_map.mp hAmount with ⟨output, hOutput, rfl⟩
  exact hPaying.amounts output hOutput

theorem weight_eq
    (hPaying : Paying coins tx entries) :
    tx.weight =
      32 + 266 * entries.length + 168 * tx.outputs.length +
        5 * compactSizeLen entries.length + 4 := by
  have hWeight := weight_signed hPaying.isCoinbase
    (hPaying.counted.trans hPaying.length_inputs.symm)
    hPaying.signed hPaying.programs
  have hOne : compactSizeLen tx.outputs.length = 1 := by
    have hFew := hPaying.few
    rw [compactSizeLen, if_pos (by omega)]
  rw [hWeight, hOne, hPaying.length_inputs]

/- How many inputs there are decides whether it is too heavy. -/
theorem weight_le_iff
    (hPaying : Paying coins tx entries) :
    tx.weight ≤ maxBlockWeight ↔
      entries.length ≤ maxPaymentInputs := by
  have hWeight := hPaying.weight_eq
  have hFew := hPaying.few
  have hPays : 0 < tx.outputs.length :=
    List.length_pos_iff.mpr hPaying.pays
  have hMost := compactSizeLen_le entries.length
  unfold maxBlockWeight maxPaymentInputs
  constructor
  · intro hLight
    by_contra hMany
    have hThree : 3 ≤ compactSizeLen entries.length := by
      unfold compactSizeLen
      rw [if_neg (by omega)]
      split
      · decide
      split
      · decide
      · decide
    omega
  · intro hWithin
    have hThree : compactSizeLen entries.length ≤ 3 := by
      unfold compactSizeLen
      split
      · decide
      · rw [if_pos (by omega)]
    omega

/- Of the context-free rules only the weight can fail. -/
theorem checkTransaction_iff
    (hPaying : Paying coins tx entries)
    {params : ChainParams}
    {network : Network}
    (hNetwork : params = paramsFor network) :
    checkTransaction tx params = .ok () ↔
      entries.length ≤ maxPaymentInputs := by
  have hLimits :
      params.blockLimits.tx = consensusTxLimits ∧
        params.maxBlockWeight = maxBlockWeight := by
    rw [hNetwork]
    cases network <;> exact ⟨rfl, rfl⟩
  rw [← hPaying.weight_le_iff, checkTransaction_eq_ok,
    hLimits.1, hLimits.2]
  constructor
  · exact fun hAll => hAll.2.2.2.2.2.2.2
  · intro hLight
    have hMany := hPaying.weight_le_iff.mp hLight
    have hFew := hPaying.few
    have hFunded := hPaying.funded
    have hSum := hPaying.fee
    have hBounded := hPaying.bounded
    have hLength := hPaying.length_inputs
    unfold maxPaymentInputs at hMany
    refine ⟨?_, hPaying.pays, ?_, ?_, ?_, ?_, ?_, hLight⟩
    · intro hNone
      rw [hNone] at hLength
      exact hFunded
        (List.length_eq_zero_iff.mp hLength.symm)
    · rw [hLength]
      exact Nat.le_trans hMany (by decide)
    · exact Nat.le_trans hFew (by decide)
    · rw [checkTransactionForm_eq_ok, hPaying.isCoinbase]
      refine ⟨(fun hNo => nomatch hNo), fun _ =>
        ⟨hPaying.data, hPaying.counted.trans hLength.symm,
          ?_⟩⟩
      intro input hInput
      rw [hPaying.inputs] at hInput
      rcases List.mem_map.mp hInput with
        ⟨entry, hEntry, rfl⟩
      exact hPaying.real entry hEntry
    · refine checkOutputAmounts_of_le (Int.le_refl 0)
        hPaying.amounts ?_
      change 0 + paidOut tx ≤ _
      omega
    · intro _
      rw [hPaying.outpoints]
      refine ⟨hPaying.once, ?_⟩
      intro witness hWitness
      refine (hPaying.signed witness hWitness).checkWitness ?_
      rw [hLimits.1]
      decide

/- The fee is what the inputs are worth above the outputs. -/
theorem transactionFee_eq
    (hPaying : Paying coins tx entries) :
    ∃ fee,
      transactionFee tx (entries.map UtxoEntry.coin) =
          .ok fee ∧
        fee.toInt = totalValue entries - paidOut tx := by
  have hIn :
      (((entries.map UtxoEntry.coin).map fun coin =>
        coin.output.amount).map Int64.toInt).sum =
        totalValue entries := by
    rw [List.map_map, List.map_map]
    rfl
  have hOut :
      ((tx.outputs.map TxOutput.amount).map
        Int64.toInt).sum = paidOut tx := by
    rw [List.map_map]
    rfl
  have hFee := hPaying.fee
  have hPaid := hPaying.paidOut_nonneg
  have hBounded := hPaying.bounded
  have hMoney : maxMoney.toInt = 83999999932170000 := rfl
  rcases @sumAmounts_of_le 0
    ((entries.map UtxoEntry.coin).map
      fun coin => coin.output.amount)
    (Int.le_refl 0)
    (by
      intro amount hAmount
      rw [List.map_map] at hAmount
      rcases List.mem_map.mp hAmount with
        ⟨entry, hEntry, rfl⟩
      exact hPaying.values entry hEntry)
    (by
      rw [hIn]
      change 0 + totalValue entries ≤ _
      omega) with ⟨spent, hSpent⟩
  rcases @sumAmounts_of_le 0
    (tx.outputs.map TxOutput.amount) (Int.le_refl 0)
    (by
      intro amount hAmount
      rcases List.mem_map.mp hAmount with
        ⟨output, hOutput, rfl⟩
      exact hPaying.amounts output hOutput)
    (by
      rw [hOut]
      change 0 + paidOut tx ≤ _
      omega) with ⟨paid, hPaidOut⟩
  have hSpentInt := sumAmounts_toInt hSpent
  have hPaidInt := sumAmounts_toInt hPaidOut
  rw [hIn] at hSpentInt
  rw [hOut] at hPaidInt
  have hZero : (0 : Int64).toInt = 0 := rfl
  refine ⟨spent - paid, ?_, ?_⟩
  · rw [transactionFee, except_check_eq_ok,
      except_check_eq_ok, rejectIf_eq_ok, rejectIf_eq_ok]
    refine ⟨hPaying.isCoinbase, ?_, ?_⟩
    · rw [bne_eq_false_iff_eq, List.length_map,
        hPaying.length_inputs]
    · rw [hSpent, hPaidOut]
      dsimp only
      rw [if_neg]
      rw [gt_iff_lt, Int64.lt_iff_toInt_lt]
      omega
  · rw [toInt_sub_of_fits ⟨by omega, by omega⟩]
    omega

theorem resolveInputs_eq
    (hPaying : Paying coins tx entries)
    (spendHeight : UInt32) :
    Mempool.empty.resolveInputs tx coins spendHeight =
      some (entries.map UtxoEntry.coin) := by
  have hHeld := hPaying.held
  rw [Mempool.resolveInputs, hPaying.inputs]
  clear hPaying
  induction entries with
  | nil => rfl
  | cons entry rest ih =>
      rw [List.forall_mem_cons] at hHeld
      rw [List.map_cons, List.mapM_cons, ih hHeld.2]
      rw [show coins (TxBuilder.inputFor entry).outpoint =
        some entry.coin from hHeld.1]
      rfl

/- The rules about the coins, for coins that can be found. -/
theorem checkTransactionInputs_iff
    (hPaying : Paying coins tx entries)
    {c : Crypto}
    {params : ChainParams}
    {spendHeight : UInt32}
    {opens : UtxoEntry → Prop}
    (hOpens :
      authoriseInputs c params tx
            (computeSigHashMidstates c tx) 0
            (entries.map UtxoEntry.coin) tx.witnesses =
          .ok () ↔
        ∀ entry ∈ entries, opens entry)
    {fee : Int64}
    (hFee :
      transactionFee tx (entries.map UtxoEntry.coin) =
        .ok fee) :
    checkTransactionInputs c tx
          (entries.map UtxoEntry.coin) spendHeight params =
        .ok fee ↔
      ∀ entry ∈ entries,
        isImmature params spendHeight entry.coin = false ∧
          opens entry := by
  have hCount :
      ((entries.map UtxoEntry.coin).length !=
        tx.inputs.length) = false := by
    rw [bne_eq_false_iff_eq, List.length_map,
      hPaying.length_inputs]
  have hWitnesses :
      (tx.witnesses.length != tx.inputs.length) = false := by
    rw [bne_eq_false_iff_eq, hPaying.counted,
      hPaying.length_inputs]
  rw [checkTransactionInputs, except_check_eq_ok,
    except_check_eq_ok, except_check_eq_ok, rejectIf_eq_ok,
    rejectIf_eq_ok, rejectIf_eq_ok, hFee,
    hPaying.isCoinbase, hCount]
  have hSpend :
      checkSpendAuthorisation c tx
            (entries.map UtxoEntry.coin) params =
          .ok () ↔
        ∀ entry ∈ entries, opens entry := by
    rw [checkSpendAuthorisation, except_check_eq_ok,
      except_check_eq_ok, except_check_eq_ok, rejectIf_eq_ok,
      rejectIf_eq_ok, rejectIf_eq_ok, hPaying.isCoinbase,
      hCount, hWitnesses, hOpens]
    simp
  have hAge :
      ((entries.map UtxoEntry.coin).any
          (isImmature params spendHeight)) = false ↔
        ∀ entry ∈ entries,
          isImmature params spendHeight entry.coin =
            false := by
    rw [List.any_map, List.any_eq_false]
    simp
  rw [hAge]
  change _ ∧ _ ∧ _ ∧
    (checkSpendAuthorisation c tx
        (entries.map UtxoEntry.coin) params >>= fun _ =>
      .ok fee) = .ok fee ↔ _
  rw [except_check_eq_ok, hSpend]
  constructor
  · rintro ⟨-, -, hMature, hOpen, -⟩ entry hEntry
    exact ⟨hMature entry hEntry, hOpen entry hEntry⟩
  · intro hAll
    exact ⟨rfl, rfl,
      fun entry hEntry => (hAll entry hEntry).1,
      fun entry hEntry => (hAll entry hEntry).2, rfl⟩

/- The fee that is reported is what the outputs leave. -/
theorem toInt_fee
    (hPaying : Paying coins tx entries) :
    (TxBuilder.sumOf
          ((entries.map UtxoEntry.coin).map
            fun coin => coin.output.amount) -
        TxBuilder.sumOf
          (tx.outputs.map TxOutput.amount)).toInt =
      totalValue entries - paidOut tx := by
  have hMoney : maxMoney.toInt = 83999999932170000 := rfl
  have hBounded := hPaying.bounded
  have hFee := hPaying.fee
  have hPaid := hPaying.paidOut_nonneg
  have hSpent :
      (((entries.map UtxoEntry.coin).map
          fun coin => coin.output.amount).map
        Int64.toInt).sum =
        totalValue entries := by
    rw [List.map_map, List.map_map]
    rfl
  have hOut :
      ((tx.outputs.map TxOutput.amount).map
        Int64.toInt).sum =
        paidOut tx := by
    rw [List.map_map]
    rfl
  have hIn := @toInt_sumOf
    ((entries.map UtxoEntry.coin).map
      fun coin => coin.output.amount)
    (by
      rw [List.map_map]
      intro amount hAmount
      rcases List.mem_map.mp hAmount with
        ⟨entry, hEntry, rfl⟩
      exact hPaying.values entry hEntry)
    (by omega)
  have hLeft := @toInt_sumOf
    (tx.outputs.map TxOutput.amount)
    (by
      intro amount hAmount
      rcases List.mem_map.mp hAmount with
        ⟨output, hOutput, rfl⟩
      exact hPaying.amounts output hOutput)
    (by omega)
  rw [hSpent] at hIn
  rw [hOut] at hLeft
  rw [toInt_sub_of_fits, hIn, hLeft]
  rw [hIn, hLeft]
  exact ⟨by omega, by omega⟩

/-
  An empty pool takes the payment where it is not too heavy,
  and every coin is old enough and opens to its key.
-/
theorem accept_iff
    (hPaying : Paying coins tx entries)
    {c : Crypto}
    {params : ChainParams}
    {network : Network}
    (hNetwork : params = paramsFor network)
    {opens : UtxoEntry → Prop}
    (hOpens :
      authoriseInputs c params tx
            (computeSigHashMidstates c tx) 0
            (entries.map UtxoEntry.coin) tx.witnesses =
          .ok () ↔
        ∀ entry ∈ entries, opens entry)
    (spendHeight : UInt32)
    (now : Int64) :
    (∃ accepted after,
        Mempool.empty.accept c tx coins spendHeight now
            params =
          (.ok accepted, after)) ↔
      entries.length ≤ maxPaymentInputs ∧
        ∀ entry ∈ entries,
          isImmature params spendHeight entry.coin = false ∧
            opens entry := by
  rcases hPaying.transactionFee_eq with
    ⟨fee, hFee, hValue⟩
  have hResolved := hPaying.resolveInputs_eq spendHeight
  rw [← hPaying.checkTransaction_iff hNetwork,
    ← hPaying.checkTransactionInputs_iff hOpens hFee]
  constructor
  · rintro ⟨accepted, after, hAccept⟩
    rcases Mempool.accept_cases c Mempool.empty tx
      spendHeight now params coins with
      ⟨rejection, hRefused⟩ | ⟨spent, hSpent, hJudged⟩
    · cases hRefused.symm.trans hAccept
    · rw [hResolved] at hSpent
      cases hSpent
      rcases Mempool.acceptSpending_cases c Mempool.empty tx
        spendHeight now params
        (entries.map UtxoEntry.coin) with
        ⟨rejection, hRefused⟩ | ⟨other, hAdmits, -⟩
      · cases (hJudged.trans hRefused).symm.trans hAccept
      · have hInputs := hAdmits.inputs
        have hOther := checkTransactionInputs_fee hInputs
        rw [hFee] at hOther
        cases hOther
        exact ⟨hAdmits.shape, hInputs⟩
  · rintro ⟨hShape, hInputs⟩
    have hMany :=
      (hPaying.checkTransaction_iff hNetwork).mp hShape
    have hLight := hPaying.weight_le_iff.mpr hMany
    have hWeight := hPaying.weight_eq
    have hFew := hPaying.few
    have hMost := compactSizeLen_le entries.length
    have hPositive : 0 < entries.length :=
      List.length_pos_iff.mpr hPaying.funded
    have hEnough := hPaying.fee
    unfold maxBlockWeight at hLight
    have hStanding :
        Mempool.Standing c params tx
          (entries.map UtxoEntry.coin) spendHeight fee := by
      refine ⟨hPaying.isCoinbase, hShape, hInputs, ?_, ?_,
        ?_⟩
      · omega
      · unfold maxMempoolWeight
        omega
      · have hExact :
            (Int64.ofNat tx.weight).toInt = tx.weight :=
          Int64.toInt_ofNat_of_lt (by omega)
        have hOne :
            Int64.ofNat tx.weight * minRelayFeerate =
              Int64.ofNat tx.weight :=
          Int64.mul_one _
        rw [hOne, Int64.lt_iff_toInt_lt, hExact, hValue]
        omega
    have hRoom :
        Mempool.empty.totalWeight + tx.weight ≤
          maxMempoolWeight := by
      unfold maxMempoolWeight Mempool.empty
      dsimp only
      omega
    rcases (Mempool.Holds.empty c now).accept
      (fun _ hNone => nomatch hNone) hStanding hRoom
      hResolved with ⟨accepted, after, hAccept, -⟩
    exact ⟨accepted, after, hAccept⟩

end Paying

end Wallet

end Amarian
