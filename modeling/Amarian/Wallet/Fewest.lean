import Amarian.Lib.Greedy
import Amarian.Wallet.CoinSelection
import Mathlib.Algebra.Order.Group.Int

/-
  Which coins a selection takes, and how few.

  Every coin taken raises the fee, so that no choice other
  than the largest coins pays for the target with fewer.

  Key definitions include:
    * `Wallet.Suffices`
    * `Wallet.WithoutOverflow`
    * `Wallet.Economical`

  Key theorems include:
    * `Wallet.leastCovers_of_suffices`
    * `Wallet.selectCoins_economical`
-/

------------------------------------------------------------
-- Coins That Pay
------------------------------------------------------------

namespace Amarian

namespace Wallet

/- Some of the coins pay for the target and their own fee. -/
structure Suffices
    (utxos : List UtxoEntry)
    (target feeRate : Int64)
    (chosen : List UtxoEntry) : Prop where
  within : chosen.Subperm utxos
  funded : chosen ≠ []
  pays :
    target.toInt +
        feeRate.toInt *
          (estimateTxWeight chosen.length 1 2420 : Nat) ≤
      totalValue chosen

/-
  The coins can be added up, and so can the target and each
  fee that is estimated while fewer coins do not pay.
-/
structure WithoutOverflow
    (sort : ValueSort)
    (utxos : List UtxoEntry)
    (target feeRate : Int64) : Prop where
  total : totalValue utxos < 2 ^ 63
  estimates :
    target.toInt ≤ totalValue utxos →
      ∀ count ≤ utxos.length,
        (∀ fewer, 0 < fewer → fewer < count →
          ¬Covers target feeRate (sort.order utxos) fewer) →
        target.toInt +
            feeRate.toInt *
              (estimateTxWeight count 1 2420 : Nat) <
          2 ^ 63

/- The fewest coins, with all they are worth accounted for. -/
structure Economical
    (utxos : List UtxoEntry)
    (target feeRate : Int64)
    (result : CoinSelection) : Prop where
  enough : Suffices utxos target feeRate result.inputs
  fewest :
    ∀ chosen, Suffices utxos target feeRate chosen →
      result.inputs.length ≤ chosen.length
  total :
    result.totalSelected.toInt = totalValue result.inputs
  balance :
    result.totalSelected.toInt =
      target.toInt + result.fee.toInt + result.change.toInt
  fee :
    feeRate.toInt *
        (estimateTxWeight result.inputs.length 1 2420 :
          Nat) ≤
      result.fee.toInt
  change :
    result.change = 0 ∨
      dustForFeeRate feeRate ≤ result.change

section Fronts

variable {target feeRate : Int64}
variable {utxos : List UtxoEntry}

theorem leastCovers_iff
    {entries : List UtxoEntry}
    {count : Nat} :
    LeastCovers target feeRate entries count ↔
      Greedy.Fewest (fun entry => entry.amount.toInt)
        (cost target feeRate) entries count :=
  ⟨fun ⟨hPositive, hWithin, hCovers, hLeast⟩ =>
      ⟨hPositive, hWithin, hCovers, hLeast⟩,
    fun ⟨hPositive, hWithin, hReached, hLeast⟩ =>
      ⟨hPositive, hWithin, hReached, hLeast⟩⟩

theorem descending_order
    (sort : ValueSort)
    (utxos : List UtxoEntry) :
    (sort.order utxos).Pairwise
      fun entry next =>
        next.amount.toInt ≤ entry.amount.toInt :=
  (sort.descending utxos).imp Int64.le_iff_toInt_le.mp

theorem Suffices.reached
    {chosen : List UtxoEntry}
    (hChosen : Suffices utxos target feeRate chosen) :
    Greedy.Reached (fun entry => entry.amount.toInt)
      (cost target feeRate) chosen :=
  hChosen.pays

/- If any coins pay, then so do enough of the largest. -/
theorem leastCovers_of_suffices
    (sort : ValueSort)
    {chosen : List UtxoEntry}
    (hChosen : Suffices utxos target feeRate chosen) :
    ∃ count,
      LeastCovers target feeRate (sort.order utxos) count := by
  rcases Greedy.exists_fewest (sort.perm utxos)
    (descending_order sort utxos) hChosen.within
    hChosen.funded hChosen.reached with
    ⟨count, hCount⟩
  exact ⟨count, leastCovers_iff.mpr hCount⟩

theorem LeastCovers.le_length
    {sort : ValueSort}
    {count : Nat}
    (hCount :
      LeastCovers target feeRate (sort.order utxos) count)
    {chosen : List UtxoEntry}
    (hChosen : Suffices utxos target feeRate chosen) :
    count ≤ chosen.length :=
  (leastCovers_iff.mp hCount).le_length (sort.perm utxos)
    (descending_order sort utxos) hChosen.within
    hChosen.funded hChosen.reached

/- A front that covers its cost is a choice that pays. -/
theorem suffices_take
    {sort : ValueSort}
    {count : Nat}
    (hPositive : 0 < count)
    (hWithin : count ≤ utxos.length)
    (hCovers :
      Covers target feeRate (sort.order utxos) count) :
    Suffices utxos target feeRate
      ((sort.order utxos).take count) := by
  rw [← (sort.perm utxos).length_eq] at hWithin
  have hReached : cost target feeRate count ≤
      Greedy.value (fun entry => entry.amount.toInt)
        ((sort.order utxos).take count) :=
    hCovers
  rcases Greedy.reached_front (sort.perm utxos) hPositive
    hWithin hReached with
    ⟨hChosen, hFunded, hPays⟩
  exact ⟨hChosen, hFunded, hPays⟩

end Fronts

------------------------------------------------------------
-- What Is Accounted For
------------------------------------------------------------

section Accounts

variable {target feeRate : Int64} {insists : Bool}

/- The running total is the sum of what was taken. -/
theorem accumulated_gather
    {rest : List UtxoEntry}
    {estInputs : Nat}
    {accumulated estFee : Int64} :
    (gather target feeRate insists rest estInputs
        accumulated estFee).accumulated =
      (gather target feeRate insists rest estInputs
          accumulated estFee).inputs.foldl
        (fun total entry => total + entry.amount)
        accumulated := by
  induction rest generalizing estInputs accumulated estFee
  with
  | nil => rfl
  | cons entry rest ih =>
      rw [gather]
      split
      · rfl
      · exact ih

theorem length_gather_le
    {rest : List UtxoEntry}
    {estInputs : Nat}
    {accumulated estFee : Int64} :
    (gather target feeRate insists rest estInputs
        accumulated estFee).inputs.length ≤
      rest.length := by
  induction rest generalizing estInputs accumulated estFee
  with
  | nil => exact Nat.le_refl 0
  | cons entry rest ih =>
      rw [gather]
      split
      · exact Nat.zero_le _
      · exact Nat.succ_le_succ ih

/- Change that would be dust is left as a fee. -/
theorem change_settleChange
    {found : Gathered}
    (hNonneg :
      0 ≤ (settleChange target feeRate found).change.toInt) :
    (settleChange target feeRate found).change = 0 ∨
      dustForFeeRate feeRate ≤
        (settleChange target feeRate found).change := by
  unfold settleChange at hNonneg ⊢
  dsimp only at hNonneg ⊢
  split at hNonneg
  · rename_i hDusty
    rw [if_pos hDusty]
    exact Or.inl rfl
  · rename_i hKept
    rw [if_neg hKept]
    rw [Bool.and_eq_true, decide_eq_true_eq,
      decide_eq_true_eq, not_and, gt_iff_lt,
      Int64.lt_iff_toInt_lt, Int64.not_lt] at hKept
    rcases Int.lt_or_eq_of_le hNonneg with hSome | hNone
    · exact Or.inr (hKept hSome)
    · exact Or.inl (Int64.toInt_inj.mp hNone.symm)

section Outcome

variable (sort : ValueSort) (utxos : List UtxoEntry)
variable (target feeRate : Int64)

theorem totalSelected_selectCoins :
    (selectCoins sort utxos target feeRate).totalSelected =
      (selectCoins sort utxos target feeRate).inputs.foldl
        (fun total entry => total + entry.amount) 0 := by
  unfold selectCoins
  split
  · rfl
  dsimp only
  split
  · rfl
  split
  · rfl
  · exact accumulated_gather

theorem length_selectCoins_le :
    (selectCoins sort utxos target feeRate).inputs.length ≤
      utxos.length := by
  unfold selectCoins
  split
  · exact Nat.zero_le _
  dsimp only
  split
  · exact Nat.zero_le _
  split
  · exact Nat.zero_le _
  · exact Nat.le_trans length_gather_le
      (Nat.le_of_eq (sort.perm utxos).length_eq)

theorem change_selectCoins
    (hNonneg :
      0 ≤ (selectCoins sort utxos target
        feeRate).change.toInt) :
    (selectCoins sort utxos target feeRate).change = 0 ∨
      dustForFeeRate feeRate ≤
        (selectCoins sort utxos target feeRate).change := by
  unfold selectCoins at hNonneg ⊢
  split
  · exact Or.inl rfl
  rename_i hAsked
  rw [if_neg hAsked] at hNonneg
  dsimp only at hNonneg ⊢
  split
  · exact Or.inl rfl
  rename_i hFunds
  rw [if_neg hFunds] at hNonneg
  split
  · exact Or.inl rfl
  rename_i hEnough
  rw [if_neg hEnough] at hNonneg
  exact change_settleChange hNonneg

/- Nothing is selected from less than the target. -/
theorem target_le_of_success
    {sort : ValueSort}
    {utxos : List UtxoEntry}
    {target feeRate : Int64}
    (hSummable : Summable utxos)
    (hSuccess :
      (selectCoins sort utxos target feeRate).success =
        true) :
    target.toInt ≤ totalValue utxos := by
  have hOrdered := hSummable.perm (sort.perm utxos)
  unfold selectCoins at hSuccess
  split at hSuccess
  · cases hSuccess
  dsimp only at hSuccess
  split at hSuccess
  · cases hSuccess
  rename_i hFunds
  rw [Int64.not_lt, Int64.le_iff_toInt_le,
    hOrdered.toInt_foldl] at hFunds
  exact Int.le_trans hFunds
    (Int.le_of_eq ((sort.perm utxos).map _).sum_eq)

end Outcome

end Accounts

------------------------------------------------------------
-- The Fewest Coins
------------------------------------------------------------

section Fewest

variable {sort : ValueSort} {utxos : List UtxoEntry}
variable {target feeRate : Int64}

/-
  The cost of what a front covers is no more than all coins
  are worth; where no front does, every estimate is made.
-/
theorem WithoutOverflow.cost_lt
    (hFits : WithoutOverflow sort utxos target feeRate)
    (hTarget : 0 < target.toInt)
    (hRate : 0 ≤ feeRate.toInt)
    (hSummable : Summable utxos)
    (hSuccess :
      (selectCoins sort utxos target feeRate).success =
        true) :
    cost target feeRate
        (selectCoins sort utxos target
          feeRate).inputs.length <
      2 ^ 63 := by
  by_cases hSome :
      ∃ chosen, Suffices utxos target feeRate chosen
  · rcases hSome with ⟨chosen, hChosen⟩
    rcases leastCovers_of_suffices sort hChosen with
      ⟨count, hCount⟩
    have hOrdered := hSummable.perm (sort.perm utxos)
    have hTaken :=
      totalValue_take_le hOrdered.nonneg count
    have hCovers := hCount.covers
    have hBounded := hOrdered.bounded
    rw [(selectCoins_of_covers sort hTarget hRate hSummable
      hCount).2]
    rw [Covers] at hCovers
    omega
  · have hNone : ∀ count, 0 < count →
        count < utxos.length →
          ¬Covers target feeRate (sort.order utxos)
            count :=
      fun count hPositive hLess hCovers =>
        hSome ⟨_, suffices_take hPositive
          (Nat.le_of_lt hLess) hCovers⟩
    exact Int.lt_of_le_of_lt
      (cost_mono hRate
        (length_selectCoins_le sort utxos target feeRate))
      (hFits.estimates
        (target_le_of_success hSummable hSuccess)
        utxos.length (Nat.le_refl _) hNone)

/-
  A selection succeeds exactly if some coins pay, and then
  takes as few as possible and accounts for all of them.
-/
theorem selectCoins_economical
    (sort : ValueSort)
    (hTarget : 0 < target.toInt)
    (hRate : 0 ≤ feeRate.toInt)
    (hNonneg : ∀ entry ∈ utxos, 0 ≤ entry.amount.toInt)
    (hFits : WithoutOverflow sort utxos target feeRate) :
    ((selectCoins sort utxos target feeRate).success =
          true ↔
        ∃ chosen, Suffices utxos target feeRate chosen) ∧
      ((selectCoins sort utxos target feeRate).success =
          true →
        Economical utxos target feeRate
          (selectCoins sort utxos target feeRate)) := by
  have hSummable : Summable utxos := ⟨hNonneg, hFits.total⟩
  have hEconomical :
      (selectCoins sort utxos target feeRate).success =
          true →
        Economical utxos target feeRate
          (selectCoins sort utxos target feeRate) := by
    intro hSuccess
    have hCost := hFits.cost_lt hTarget hRate hSummable
      hSuccess
    have hSelected :=
      (selectCoins_spec sort hRate hSummable hSuccess hCost).2
    have hTotal := totalSelected_selectCoins sort utxos target
      feeRate
    have hChange := change_selectCoins sort utxos target
      feeRate hSelected.change
    generalize hResult :
      selectCoins sort utxos target feeRate = result
      at hSelected hTotal hChange
    have hEnough :
        Suffices utxos target feeRate result.inputs := by
      rw [hSelected.inputs]
      refine suffices_take hSelected.count.positive ?_
        hSelected.count.covers
      rw [← (sort.perm utxos).length_eq]
      exact hSelected.count.within
    have hOwn : Summable result.inputs := by
      have hOrdered := hSummable.perm (sort.perm utxos)
      have hTaken := totalValue_take_le hOrdered.nonneg
        result.inputs.length
      rw [← hSelected.inputs] at hTaken
      refine ⟨fun entry hEntry =>
        hNonneg entry (hEnough.within.subset hEntry), ?_⟩
      exact Int.lt_of_le_of_lt hTaken hOrdered.bounded
    have hSum :
        result.totalSelected.toInt =
          totalValue result.inputs := by
      rw [hTotal, hOwn.toInt_foldl]
    constructor
    case enough => exact hEnough
    case fewest =>
      exact fun chosen hChosen =>
        hSelected.count.le_length hChosen
    case total => exact hSum
    case balance => exact hSum.trans hSelected.balance
    case fee =>
      have hFee := hSelected.fee
      rw [cost] at hFee
      omega
    case change => exact hChange
  refine ⟨⟨?_, ?_⟩, hEconomical⟩
  · exact fun hSuccess => ⟨_, (hEconomical hSuccess).enough⟩
  · intro hSome
    rcases hSome with ⟨chosen, hChosen⟩
    rcases leastCovers_of_suffices sort hChosen with
      ⟨count, hCount⟩
    exact (selectCoins_of_covers sort hTarget hRate hSummable
      hCount).1

end Fewest

end Wallet

namespace Sample

open Wallet

def coinWorth
    (amount : Int64) : UtxoEntry :=
  { outpoint := { txid := .zero, index := 0 }
    coin :=
      { output :=
          { amount := amount
            lock := { version := 1, program := [] } }
        height := 1
        isCoinbase := false }
    confirmed := true
    accountId := 0
    derivationIndex := 0 }

def threeCoins : List UtxoEntry :=
  [coinWorth 3000, coinWorth 9000, coinWorth 8000]

/- One coin is not enough, and the two largest are. -/
theorem selectCoins_two :
    (selectCoins valueSort threeCoins 10000 1).inputs =
        [coinWorth 9000, coinWorth 8000] ∧
      Economical threeCoins 10000 1
        (selectCoins valueSort threeCoins 10000 1) := by
  have hFits :
      WithoutOverflow valueSort threeCoins 10000 1 := by
    refine ⟨by decide, ?_⟩
    intro _ count hCount _
    have hRate : (1 : Int64).toInt = 1 := rfl
    have hTarget : (10000 : Int64).toInt = 10000 := rfl
    have hLength : threeCoins.length = 3 := rfl
    rw [estimateTxWeight_one, hRate, hTarget]
    omega
  exact ⟨by decide,
    (selectCoins_economical valueSort (by decide) (by decide)
      (by decide) hFits).2 (by decide)⟩

end Sample

end Amarian
