import Amarian.Primitives.Transaction
import Amarian.Util.Overflow
import Mathlib.Algebra.Order.BigOperators.Group.List
import Mathlib.Data.List.Sort

/-
  Choosing the coins that a payment spends.

  The largest coins come first, and coins are taken until
  they pay for the amount and an estimated fee.  How coins of
  one value are ordered is left to the sort.

  Key definitions include:
    * `UtxoEntry`
    * `ValueSort`
    * `gather`
    * `selectCoins`
    * `Covers`

  Key theorems include:
    * `gather_spec`
    * `selectCoins_spec`
    * `selectCoins_of_covers`
-/

------------------------------------------------------------
-- Estimates
------------------------------------------------------------

namespace Amarian

namespace Wallet

/- A smaller change is left to the fee. -/
def dustThreshold : Int64 := 1000

def defaultFeerate : Int64 := 10

/- A coin of the wallet, with its account and key index. -/
structure UtxoEntry where
  outpoint : OutPoint
  coin : Coin
  confirmed : Bool
  accountId : UInt32
  derivationIndex : UInt32
deriving DecidableEq

def UtxoEntry.amount
    (entry : UtxoEntry) : Int64 :=
  entry.coin.output.amount

/- `SortByDescendingValue`: any order with no rise in it. -/
structure ValueSort where
  order : List UtxoEntry → List UtxoEntry
  perm : ∀ entries, (order entries).Perm entries
  descending :
    ∀ entries,
      (order entries).Pairwise
        fun entry next => next.amount ≤ entry.amount

def inputWeight
    (sigBytes : Nat) : Nat :=
  36 * witnessScaleFactor + sigBytes

def outputWeight : Nat := 4 * (8 + 1 + 1 + 32)

def estimateTxWeight
    (numInputs numOutputs inputSignatureBytes : Nat) : Nat :=
  (4 + 1 + 1 + 4) * witnessScaleFactor +
    numInputs * inputWeight inputSignatureBytes +
    numOutputs * outputWeight

def dustForFeeRate
    (feeRate : Int64) : Int64 :=
  Int64.ofNat (inputWeight 72 + outputWeight) * feeRate

------------------------------------------------------------
-- Selection
------------------------------------------------------------

structure CoinSelection where
  inputs : List UtxoEntry
  totalSelected : Int64
  target : Int64
  change : Int64
  fee : Int64
  success : Bool
deriving DecidableEq

structure Gathered where
  inputs : List UtxoEntry
  accumulated : Int64
  estFee : Int64
deriving DecidableEq

/-
  The loop of either pass.  Only the second pass insists on
  one coin; both estimate anew with every coin they take.
-/
def gather
    (target feeRate : Int64)
    (insists : Bool) :
    List UtxoEntry → Nat → Int64 → Int64 → Gathered
  | [], _, accumulated, estFee => ⟨[], accumulated, estFee⟩
  | entry :: rest, estInputs, accumulated, estFee =>
      if accumulated ≥ target + estFee ∧
          (insists = true → estInputs > 0) then
        ⟨[], accumulated, estFee⟩
      else
        let done :=
          gather target feeRate insists rest (estInputs + 1)
            (accumulated + entry.amount)
            (feeRate * Int64.ofNat
              (estimateTxWeight (estInputs + 1) 1 2420))
        { done with inputs := entry :: done.inputs }

def noSelection
    (target : Int64) : CoinSelection :=
  { inputs := []
    totalSelected := 0
    target := target
    change := 0
    fee := 0
    success := false }

/- What is left over, or is too little to be an output. -/
def settleChange
    (target feeRate : Int64)
    (found : Gathered) : CoinSelection :=
  let change := found.accumulated - target - found.estFee
  let dusty :=
    decide (change > 0) &&
      decide (change < dustForFeeRate feeRate)
  let fee :=
    if dusty then found.estFee + change else found.estFee
  { inputs := found.inputs
    totalSelected := found.accumulated
    target := target
    change := if dusty then 0 else change
    fee := fee
    success := decide (found.accumulated ≥ target + fee) }

def selectCoins
    (sort : ValueSort)
    (utxos : List UtxoEntry)
    (target feeRate : Int64) : CoinSelection :=
  if target ≤ 0 ∨ utxos.isEmpty then
    noSelection target
  else
    let candidates := sort.order utxos
    let total :=
      candidates.foldl
        (fun total entry => total + entry.amount) 0
    if total < target then
      noSelection target
    else
      let first :=
        gather target feeRate false candidates 0 0
          (feeRate * Int64.ofNat
            (estimateTxWeight 0 0 2420))
      if first.accumulated < target + first.estFee then
        noSelection target
      else
        -- the fee of the first pass is where this one starts
        settleChange target feeRate
          (gather target feeRate true candidates 0 0
            first.estFee)

------------------------------------------------------------
-- Exact Costs
------------------------------------------------------------

def totalValue
    (entries : List UtxoEntry) : Int :=
  (entries.map fun entry => entry.amount.toInt).sum

@[simp] theorem totalValue_nil :
    totalValue [] = 0 :=
  rfl

@[simp] theorem totalValue_cons
    (entry : UtxoEntry)
    (entries : List UtxoEntry) :
    totalValue (entry :: entries) =
      entry.amount.toInt + totalValue entries :=
  List.sum_cons

/- What it takes to pay the target with so many coins. -/
def cost
    (target feeRate : Int64)
    (count : Nat) : Int :=
  target.toInt +
    feeRate.toInt * (estimateTxWeight count 1 2420 : Nat)

/- The first coins pay for the target and their own fee. -/
def Covers
    (target feeRate : Int64)
    (entries : List UtxoEntry)
    (count : Nat) : Prop :=
  cost target feeRate count ≤
    totalValue (entries.take count)

/- The least number of coins from the front that does. -/
structure LeastCovers
    (target feeRate : Int64)
    (entries : List UtxoEntry)
    (count : Nat) : Prop where
  positive : 0 < count
  within : count ≤ entries.length
  covers : Covers target feeRate entries count
  least :
    ∀ fewer, 0 < fewer → fewer < count →
      ¬Covers target feeRate entries fewer

theorem LeastCovers.unique
    {target feeRate : Int64}
    {entries : List UtxoEntry}
    {count other : Nat}
    (hCount : LeastCovers target feeRate entries count)
    (hOther : LeastCovers target feeRate entries other) :
    count = other := by
  rcases Nat.lt_trichotomy count other with
    hLess | hSame | hMore
  · exact absurd hCount.covers
      (hOther.least count hCount.positive hLess)
  · exact hSame
  · exact absurd hOther.covers
      (hCount.least other hOther.positive hMore)

theorem estimateTxWeight_one
    (count : Nat) :
    estimateTxWeight count 1 2420 = 208 + 2564 * count := by
  unfold estimateTxWeight inputWeight outputWeight
    witnessScaleFactor
  omega

theorem cost_mono
    {target feeRate : Int64}
    (hRate : 0 ≤ feeRate.toInt)
    {count other : Nat}
    (hLe : count ≤ other) :
    cost target feeRate count ≤ cost target feeRate other := by
  unfold cost
  rw [estimateTxWeight_one, estimateTxWeight_one]
  have hMore :
      feeRate.toInt * ((208 + 2564 * count : Nat) : Int) ≤
        feeRate.toInt * ((208 + 2564 * other : Nat) : Int) :=
    Int.mul_le_mul_of_nonneg_left (by omega)
      hRate
  omega

theorem toInt_mul_of_fits
    {a b : Int64}
    (hFits : FitsInt64 (a.toInt * b.toInt)) :
    (a * b).toInt = a.toInt * b.toInt := by
  rw [Int64.toInt_mul]
  unfold FitsInt64 at hFits
  apply Int.bmod_eq_of_le <;> omega

/- The weight of a free estimate is of no account. -/
theorem toInt_product
    {feeRate : Int64}
    (hRate : 0 ≤ feeRate.toInt)
    {weight : Nat}
    (hFits : feeRate.toInt * weight < 2 ^ 63) :
    (feeRate * Int64.ofNat weight).toInt =
      feeRate.toInt * weight := by
  rcases Int.lt_or_eq_of_le hRate with hPaid | hFree
  · have hSmall : (weight : Int) ≤ feeRate.toInt * weight := by
      have hOnce :
          1 * (weight : Int) ≤ feeRate.toInt * weight :=
        Int.mul_le_mul_of_nonneg_right (by omega) (by omega)
      omega
    have hWeight : (Int64.ofNat weight).toInt = weight :=
      Int64.toInt_ofNat_of_lt (by omega)
    rw [toInt_mul_of_fits, hWeight]
    rw [hWeight]
    exact ⟨by omega, by omega⟩
  · have hZero : feeRate = 0 := Int64.toInt_inj.mp hFree.symm
    rw [hZero, Int64.zero_mul]
    exact (Int.zero_mul _).symm

/- An estimate that fits is the product it stands for. -/
theorem toInt_estimate
    {target feeRate : Int64}
    (hTarget : 0 < target.toInt)
    (hRate : 0 ≤ feeRate.toInt)
    {weight : Nat}
    (hFits : target.toInt + feeRate.toInt * weight < 2 ^ 63) :
    (feeRate * Int64.ofNat weight).toInt =
        feeRate.toInt * weight ∧
      (target + feeRate * Int64.ofNat weight).toInt =
        target.toInt + feeRate.toInt * weight := by
  have hNonneg : 0 ≤ feeRate.toInt * (weight : Int) :=
    Int.mul_nonneg hRate (by omega)
  have hProduct :
      (feeRate * Int64.ofNat weight).toInt =
        feeRate.toInt * weight :=
    toInt_product hRate (by omega)
  refine ⟨hProduct, ?_⟩
  rw [toInt_add_of_fits, hProduct]
  rw [hProduct]
  exact ⟨by omega, by omega⟩

------------------------------------------------------------
-- What A Pass Takes
------------------------------------------------------------

section Passes

variable {target feeRate : Int64} {insists : Bool}

theorem gather_stop
    {entry : UtxoEntry}
    {rest : List UtxoEntry}
    {estInputs : Nat}
    {accumulated estFee : Int64}
    (hStarted : insists = true → 0 < estInputs)
    (hEnough : target + estFee ≤ accumulated) :
    gather target feeRate insists (entry :: rest) estInputs
        accumulated estFee =
      ⟨[], accumulated, estFee⟩ := by
  rw [gather, if_pos ⟨hEnough, hStarted⟩]

theorem gather_take
    {entry : UtxoEntry}
    {rest : List UtxoEntry}
    {estInputs : Nat}
    {accumulated estFee : Int64}
    (hMore :
      accumulated < target + estFee ∨
        insists = true ∧ estInputs = 0) :
    gather target feeRate insists (entry :: rest) estInputs
        accumulated estFee =
      let done :=
        gather target feeRate insists rest (estInputs + 1)
          (accumulated + entry.amount)
          (feeRate * Int64.ofNat
            (estimateTxWeight (estInputs + 1) 1 2420))
      { done with inputs := entry :: done.inputs } := by
  rw [gather, if_neg]
  rintro ⟨hEnough, hStarted⟩
  rcases hMore with hMore | ⟨hInsists, hNone⟩
  · exact absurd hEnough (Int64.not_le.mpr hMore)
  · exact absurd (hStarted hInsists) (by omega)

/- Once a coin is taken, the two passes are the same. -/
theorem gather_insists
    (entries : List UtxoEntry)
    {estInputs : Nat}
    (hStarted : 0 < estInputs)
    (accumulated estFee : Int64) :
    gather target feeRate true entries estInputs accumulated
        estFee =
      gather target feeRate false entries estInputs
        accumulated estFee := by
  induction entries generalizing estInputs accumulated estFee
  with
  | nil => rfl
  | cons entry rest ih =>
      by_cases hEnough : target + estFee ≤ accumulated
      · rw [gather_stop (fun _ => hStarted) hEnough,
          gather_stop (fun hNo : false = true => nomatch hNo)
            hEnough]
      · have hMore := Int64.not_le.mp hEnough
        rw [gather_take (Or.inl hMore),
          gather_take (Or.inl hMore)]
        dsimp only
        rw [ih (Nat.succ_pos _)]

/- What a pass has seen so far, in exact numbers. -/
structure Underway
    (target feeRate : Int64)
    (rest : List UtxoEntry)
    (estInputs : Nat)
    (accumulated estFee : Int64) : Prop where
  target_pos : 0 < target.toInt
  rate_nonneg : 0 ≤ feeRate.toInt
  nonneg : ∀ entry ∈ rest, 0 ≤ entry.amount.toInt
  before : 0 ≤ accumulated.toInt
  bounded : accumulated.toInt + totalValue rest < 2 ^ 63
  fee :
    estFee =
      feeRate * Int64.ofNat
        (estimateTxWeight estInputs 1 2420)

theorem totalValue_nonneg
    {entries : List UtxoEntry}
    (hNonneg : ∀ entry ∈ entries, 0 ≤ entry.amount.toInt) :
    0 ≤ totalValue entries := by
  unfold totalValue
  refine List.sum_nonneg ?_
  intro amount hAmount
  rcases List.mem_map.mp hAmount with ⟨entry, hEntry, rfl⟩
  exact hNonneg entry hEntry

theorem totalValue_take_le
    {entries : List UtxoEntry}
    (hNonneg : ∀ entry ∈ entries, 0 ≤ entry.amount.toInt)
    (count : Nat) :
    totalValue (entries.take count) ≤
      totalValue entries := by
  have hSplit :
      totalValue entries =
        totalValue (entries.take count) +
          totalValue (entries.drop count) := by
    conv_lhs => rw [← List.take_append_drop count entries]
    rw [totalValue, List.map_append, List.sum_append]
    rfl
  have hRest : 0 ≤ totalValue (entries.drop count) :=
    totalValue_nonneg fun entry hEntry =>
      hNonneg entry (List.mem_of_mem_drop hEntry)
  omega

namespace Underway

variable {rest : List UtxoEntry} {entry : UtxoEntry}
variable {estInputs : Nat} {accumulated estFee : Int64}

theorem toInt_next
    (hUnder :
      Underway target feeRate (entry :: rest) estInputs
        accumulated estFee) :
    (accumulated + entry.amount).toInt =
      accumulated.toInt + entry.amount.toInt := by
  have hBefore := hUnder.before
  have hBounded := hUnder.bounded
  rw [totalValue_cons] at hBounded
  have hEntry := hUnder.nonneg entry List.mem_cons_self
  have hRest : 0 ≤ totalValue rest :=
    totalValue_nonneg fun other hOther =>
      hUnder.nonneg other (List.mem_cons_of_mem _ hOther)
  exact toInt_add_of_fits ⟨by omega, by omega⟩

theorem next
    (hUnder :
      Underway target feeRate (entry :: rest) estInputs
        accumulated estFee) :
    Underway target feeRate rest (estInputs + 1)
      (accumulated + entry.amount)
      (feeRate * Int64.ofNat
        (estimateTxWeight (estInputs + 1) 1 2420)) where
  target_pos := hUnder.target_pos
  rate_nonneg := hUnder.rate_nonneg
  nonneg := fun other hOther =>
    hUnder.nonneg other (List.mem_cons_of_mem _ hOther)
  before := by
    have hBefore := hUnder.before
    have hEntry := hUnder.nonneg entry List.mem_cons_self
    rw [hUnder.toInt_next]
    omega
  bounded := by
    have hBounded := hUnder.bounded
    rw [totalValue_cons] at hBounded
    rw [hUnder.toInt_next]
    omega
  fee := rfl

/- The test of the loop, where the estimate fits. -/
theorem enough_iff
    (hUnder :
      Underway target feeRate rest estInputs accumulated
        estFee)
    (hFits : cost target feeRate estInputs < 2 ^ 63) :
    target + estFee ≤ accumulated ↔
      cost target feeRate estInputs ≤
        accumulated.toInt := by
  rw [Int64.le_iff_toInt_le, hUnder.fee,
    (toInt_estimate hUnder.target_pos hUnder.rate_nonneg
      hFits).2]
  rfl

end Underway

/-
  By induction on the coins left, a pass takes coins from
  the front until they cover the cost or run out.
-/
theorem gather_spec
    {rest : List UtxoEntry}
    {estInputs : Nat}
    {accumulated estFee : Int64}
    (hUnder :
      Underway target feeRate rest estInputs accumulated
        estFee)
    {done : Gathered}
    (hDone :
      gather target feeRate false rest estInputs accumulated
          estFee =
        done)
    (hFits :
      cost target feeRate
          (estInputs + done.inputs.length) <
        2 ^ 63) :
    done.inputs = rest.take done.inputs.length ∧
      done.accumulated.toInt =
        accumulated.toInt + totalValue done.inputs ∧
      done.estFee =
        feeRate * Int64.ofNat
          (estimateTxWeight
            (estInputs + done.inputs.length) 1 2420) ∧
      ∀ fewer < done.inputs.length,
        accumulated.toInt + totalValue (rest.take fewer) <
          cost target feeRate (estInputs + fewer) := by
  induction rest generalizing estInputs accumulated estFee
    done with
  | nil =>
      cases hDone
      refine ⟨rfl, (Int.add_zero _).symm, hUnder.fee, ?_⟩
      intro fewer hFewer
      cases hFewer
  | cons entry rest ih =>
      have hHere :
          cost target feeRate estInputs < 2 ^ 63 :=
        Int.lt_of_le_of_lt
          (cost_mono hUnder.rate_nonneg (Nat.le_add_right _ _))
          hFits
      by_cases hEnough : target + estFee ≤ accumulated
      · rw [gather_stop (fun hNo : false = true => nomatch hNo)
          hEnough] at hDone
        cases hDone
        refine ⟨rfl, (Int.add_zero _).symm, hUnder.fee, ?_⟩
        intro fewer hFewer
        cases hFewer
      · rw [gather_take (Or.inl (Int64.not_le.mp hEnough))]
          at hDone
        rw [hUnder.enough_iff hHere, Int.not_le] at hEnough
        have hShift : ∀ count,
            estInputs + (count + 1) = estInputs + 1 + count := by
          intro count
          omega
        rcases hRest :
            gather target feeRate false rest (estInputs + 1)
              (accumulated + entry.amount)
              (feeRate * Int64.ofNat
                (estimateTxWeight (estInputs + 1) 1 2420))
          with ⟨inputs, total, fee⟩
        rw [hRest] at hDone
        cases hDone
        dsimp only at hFits ⊢
        rw [List.length_cons, hShift] at hFits
        rcases ih hUnder.next hRest hFits with
          ⟨hTaken, hSum, hFee, hFewest⟩
        dsimp only at hTaken hSum hFee hFewest
        rw [hUnder.toInt_next] at hSum hFewest
        refine ⟨?_, ?_, ?_, ?_⟩
        · rw [List.length_cons, List.take_succ_cons,
            ← hTaken]
        · rw [totalValue_cons, hSum]
          omega
        · rw [List.length_cons, hShift]
          exact hFee
        · intro fewer hFewer
          rcases fewer with _ | fewer
          · rw [List.take_zero, totalValue_nil, Nat.add_zero,
              Int.add_zero]
            exact hEnough
          · have hLess := hFewest fewer
              (Nat.lt_of_succ_lt_succ hFewer)
            rw [List.take_succ_cons, totalValue_cons, hShift]
            omega

/- Where some number covers the cost, a pass stops there. -/
theorem gather_length
    {rest : List UtxoEntry}
    {estInputs : Nat}
    {accumulated estFee : Int64}
    (hUnder :
      Underway target feeRate rest estInputs accumulated
        estFee)
    {count : Nat}
    (hWithin : count ≤ rest.length)
    (hCovers :
      cost target feeRate (estInputs + count) ≤
        accumulated.toInt + totalValue (rest.take count))
    (hLeast :
      ∀ fewer < count,
        accumulated.toInt + totalValue (rest.take fewer) <
          cost target feeRate (estInputs + fewer)) :
    (gather target feeRate false rest estInputs accumulated
        estFee).inputs.length = count ∧
      (target +
          (gather target feeRate false rest estInputs
            accumulated estFee).estFee ≤
        (gather target feeRate false rest estInputs
          accumulated estFee).accumulated) := by
  have hFits : ∀ fewer ≤ count,
      cost target feeRate (estInputs + fewer) < 2 ^ 63 := by
    intro fewer hFewer
    have hMono :
        cost target feeRate (estInputs + fewer) ≤
          cost target feeRate (estInputs + count) :=
      cost_mono hUnder.rate_nonneg
        (Nat.add_le_add_left hFewer estInputs)
    have hTaken := totalValue_take_le hUnder.nonneg count
    have hBounded := hUnder.bounded
    omega
  induction count generalizing rest estInputs accumulated
    estFee with
  | zero =>
      have hHere := hFits 0 (Nat.le_refl 0)
      rw [Nat.add_zero] at hHere hCovers
      rw [List.take_zero, totalValue_nil, Int.add_zero,
        ← hUnder.enough_iff hHere] at hCovers
      cases rest with
      | nil => exact ⟨rfl, hCovers⟩
      | cons entry rest =>
          rw [gather_stop
            (fun hNo : false = true => nomatch hNo) hCovers]
          exact ⟨rfl, hCovers⟩
  | succ count ih =>
      cases rest with
      | nil => cases hWithin
      | cons entry rest =>
          have hHere := hFits 0 (Nat.zero_le _)
          have hNone := hLeast 0 (Nat.succ_pos _)
          rw [Nat.add_zero] at hHere hNone
          rw [List.take_zero, totalValue_nil,
            Int.add_zero, ← Int.not_le,
            ← hUnder.enough_iff hHere, Int64.not_le] at hNone
          have hShift : ∀ count,
              estInputs + (count + 1) =
                estInputs + 1 + count := by
            intro count
            omega
          rw [gather_take (Or.inl hNone)]
          dsimp only
          have hRest := ih hUnder.next
            (Nat.le_of_succ_le_succ hWithin)
            (by
              rw [hUnder.toInt_next, ← hShift]
              rw [List.take_succ_cons, totalValue_cons]
                at hCovers
              omega)
            (by
              intro fewer hFewer
              have hLess := hLeast (fewer + 1) (by omega)
              rw [List.take_succ_cons, totalValue_cons]
                at hLess
              rw [hUnder.toInt_next, ← hShift]
              omega)
            (by
              intro fewer hFewer
              rw [← hShift]
              exact hFits (fewer + 1) (by omega))
          exact ⟨congrArg Nat.succ hRest.1, hRest.2⟩

------------------------------------------------------------
-- What Is Selected
------------------------------------------------------------

/- What a selection promises about the coins it was given. -/
structure Selected
    (target feeRate : Int64)
    (entries : List UtxoEntry)
    (result : CoinSelection) : Prop where
  count :
    LeastCovers target feeRate entries result.inputs.length
  inputs :
    result.inputs = entries.take result.inputs.length
  fee :
    cost target feeRate result.inputs.length ≤
      target.toInt + result.fee.toInt
  change : 0 ≤ result.change.toInt
  balance :
    totalValue result.inputs =
      target.toInt + result.fee.toInt + result.change.toInt
  success : result.success = true

/- The first coin is taken by either pass. -/
theorem gather_first
    (hTarget : 0 < target.toInt)
    (hRate : 0 ≤ feeRate.toInt)
    {entry : UtxoEntry}
    {rest : List UtxoEntry}
    (hFits : cost target feeRate 1 < 2 ^ 63)
    (estFee : Int64) :
    let done :=
      gather target feeRate false rest 1 (0 + entry.amount)
        (feeRate * Int64.ofNat (estimateTxWeight 1 1 2420))
    gather target feeRate false (entry :: rest) 0 0
        (feeRate * Int64.ofNat
          (estimateTxWeight 0 0 2420)) =
      { done with inputs := entry :: done.inputs } ∧
    gather target feeRate true (entry :: rest) 0 0 estFee =
      { done with inputs := entry :: done.inputs } := by
  intro done
  constructor
  · refine gather_take (Or.inl ?_)
    have hBase :
        target.toInt +
            feeRate.toInt *
              ((estimateTxWeight 0 0 2420 : Nat) : Int) ≤
          cost target feeRate 1 := by
      have hLess :
          feeRate.toInt *
              ((estimateTxWeight 0 0 2420 : Nat) : Int) ≤
            feeRate.toInt *
              ((estimateTxWeight 1 1 2420 : Nat) : Int) :=
        Int.mul_le_mul_of_nonneg_left (by decide)
          hRate
      unfold cost
      omega
    have hNonneg :
        0 ≤ feeRate.toInt *
          ((estimateTxWeight 0 0 2420 : Nat) : Int) :=
      Int.mul_nonneg hRate (by omega)
    rw [Int64.lt_iff_toInt_lt,
      (toInt_estimate hTarget hRate (by omega)).2]
    change (0 : Int) < _
    omega
  · rw [gather_take (Or.inr ⟨rfl, rfl⟩)]
    dsimp only
    rw [gather_insists rest Nat.zero_lt_one]

/- A single input weighs more than what dust is. -/
theorem toInt_dustForFeeRate
    (hRate : 0 ≤ feeRate.toInt)
    (hFits : feeRate.toInt * 2772 < 2 ^ 63) :
    (dustForFeeRate feeRate).toInt = 384 * feeRate.toInt := by
  have hWeight :
      (Int64.ofNat (inputWeight 72 + outputWeight)).toInt =
        384 := by
    decide
  rw [dustForFeeRate, toInt_mul_of_fits, hWeight]
  rw [hWeight]
  exact ⟨by omega, by omega⟩

/- What a pass has gathered that has taken enough. -/
structure Gathers
    (target feeRate : Int64)
    (entries : List UtxoEntry)
    (found : Gathered) : Prop where
  count :
    LeastCovers target feeRate entries found.inputs.length
  inputs :
    found.inputs = entries.take found.inputs.length
  sum : found.accumulated.toInt = totalValue found.inputs
  fee :
    found.estFee =
      feeRate * Int64.ofNat
        (estimateTxWeight found.inputs.length 1 2420)
  bounded : totalValue found.inputs < 2 ^ 63

section Settling

variable {entries : List UtxoEntry} {found : Gathered}

/- Nothing of what is left over wraps around. -/
theorem Gathers.exact
    (hTarget : 0 < target.toInt)
    (hRate : 0 ≤ feeRate.toInt)
    (hFound : Gathers target feeRate entries found) :
    (target + found.estFee).toInt =
        cost target feeRate found.inputs.length ∧
      target.toInt + found.estFee.toInt =
        cost target feeRate found.inputs.length ∧
      0 ≤ found.estFee.toInt ∧
      (found.accumulated - target - found.estFee).toInt =
        totalValue found.inputs -
          cost target feeRate found.inputs.length ∧
      (dustForFeeRate feeRate).toInt =
        384 * feeRate.toInt := by
  have hBounded := hFound.bounded
  have hSum := hFound.sum
  have hCovers := hFound.count.covers
  rw [Covers, ← hFound.inputs] at hCovers
  have hFits :
      cost target feeRate found.inputs.length < 2 ^ 63 := by
    omega
  rcases toInt_estimate hTarget hRate hFits with
    ⟨hEstimate, hNeeded⟩
  rw [← hFound.fee] at hEstimate hNeeded
  have hOne :
      cost target feeRate 1 ≤
        cost target feeRate found.inputs.length :=
    cost_mono hRate hFound.count.positive
  have hLeast : cost target feeRate 1 =
      target.toInt + feeRate.toInt * 2772 :=
    rfl
  have hOwn :
      target.toInt + found.estFee.toInt =
        cost target feeRate found.inputs.length := by
    rw [hEstimate]
    rfl
  have hRest :
      (found.accumulated - target).toInt =
        found.accumulated.toInt - target.toInt :=
    toInt_sub_of_fits ⟨by omega, by omega⟩
  refine ⟨hNeeded, hOwn, by omega, ?_,
    toInt_dustForFeeRate hRate (by omega)⟩
  rw [toInt_sub_of_fits, hRest]
  · omega
  · rw [hRest]
    exact ⟨by omega, by omega⟩

/- What is left over is kept unless it would be dust. -/
theorem Gathers.change_eq
    (hTarget : 0 < target.toInt)
    (hRate : 0 ≤ feeRate.toInt)
    (hFound : Gathers target feeRate entries found) :
    (settleChange target feeRate found).change.toInt =
      if totalValue found.inputs -
            cost target feeRate found.inputs.length <
          384 * feeRate.toInt then
        0
      else
        totalValue found.inputs -
          cost target feeRate found.inputs.length := by
  rcases hFound.exact hTarget hRate with
    ⟨-, -, -, hLeft, hDust⟩
  have hCovers := hFound.count.covers
  rw [Covers, ← hFound.inputs] at hCovers
  have hNonneg :
      0 ≤ (found.accumulated - target -
        found.estFee).toInt := by
    omega
  rw [← hLeft, ← hDust]
  unfold settleChange
  dsimp only
  split
  · rename_i hDusty
    rw [Bool.and_eq_true, decide_eq_true_eq,
      decide_eq_true_eq] at hDusty
    rw [if_pos (Int64.lt_iff_toInt_lt.mp hDusty.2)]
    rfl
  · rename_i hKept
    rw [Bool.and_eq_true, decide_eq_true_eq,
      decide_eq_true_eq, not_and, gt_iff_lt,
      Int64.lt_iff_toInt_lt, Int64.lt_iff_toInt_lt] at hKept
    split
    · rename_i hLess
      rcases Int.lt_or_eq_of_le hNonneg with hSome | hNone
      · exact absurd hLess (hKept hSome)
      · exact hNone.symm
    · rfl

theorem settleChange_spec
    (hTarget : 0 < target.toInt)
    (hRate : 0 ≤ feeRate.toInt)
    (hFound : Gathers target feeRate entries found) :
    Selected target feeRate entries
      (settleChange target feeRate found) := by
  rcases hFound.exact hTarget hRate with
    ⟨hNeeded, hOwn, hEstimate, hChange, hDust⟩
  have hBounded := hFound.bounded
  have hSum := hFound.sum
  have hCovers := hFound.count.covers
  rw [Covers, ← hFound.inputs] at hCovers
  unfold settleChange
  dsimp only
  generalize hLeft :
    found.accumulated - target - found.estFee = left
  rw [hLeft] at hChange
  rcases hDusty :
      (decide (left > 0) &&
        decide (left < dustForFeeRate feeRate)) with _ | _
  · refine ⟨hFound.count, hFound.inputs, ?_, ?_, ?_, ?_⟩
    · exact Int.le_of_eq hOwn.symm
    · change 0 ≤ left.toInt
      omega
    · change totalValue found.inputs =
        target.toInt + found.estFee.toInt + left.toInt
      omega
    · change decide (found.accumulated ≥
        target + found.estFee) = true
      rw [decide_eq_true_eq, ge_iff_le,
        Int64.le_iff_toInt_le, hNeeded]
      omega
  · have hFeeSum :
        (found.estFee + left).toInt =
          found.estFee.toInt + left.toInt :=
      toInt_add_of_fits ⟨by omega, by omega⟩
    have hAll :
        (target + (found.estFee + left)).toInt =
          target.toInt + (found.estFee + left).toInt :=
      toInt_add_of_fits ⟨by omega, by omega⟩
    refine ⟨hFound.count, hFound.inputs, ?_, ?_, ?_, ?_⟩
    · refine Int.le_trans (Int.le_of_eq hOwn.symm) ?_
      change _ ≤ target.toInt + (found.estFee + left).toInt
      omega
    · exact Int.le_refl 0
    · change totalValue found.inputs =
        target.toInt + (found.estFee + left).toInt + 0
      omega
    · change decide (found.accumulated ≥
        target + (found.estFee + left)) = true
      rw [decide_eq_true_eq, ge_iff_le,
        Int64.le_iff_toInt_le, hAll]
      omega

end Settling

/- Amounts that no sum of them is too large for. -/
structure Summable
    (utxos : List UtxoEntry) : Prop where
  nonneg : ∀ entry ∈ utxos, 0 ≤ entry.amount.toInt
  bounded : totalValue utxos < 2 ^ 63

theorem Summable.perm
    {utxos entries : List UtxoEntry}
    (hSummable : Summable utxos)
    (hPerm : entries.Perm utxos) :
    Summable entries where
  nonneg := fun entry hEntry =>
    hSummable.nonneg entry (hPerm.mem_iff.mp hEntry)
  bounded := by
    have hSame : totalValue entries = totalValue utxos :=
      (hPerm.map _).sum_eq
    rw [hSame]
    exact hSummable.bounded

/- The rounds after the first coin. -/
theorem Summable.underway
    (hTarget : 0 < target.toInt)
    (hRate : 0 ≤ feeRate.toInt)
    {entry : UtxoEntry}
    {rest : List UtxoEntry}
    (hSummable : Summable (entry :: rest)) :
    Underway target feeRate rest 1 (0 + entry.amount)
      (feeRate * Int64.ofNat
        (estimateTxWeight 1 1 2420)) := by
  have hNonneg := hSummable.nonneg entry List.mem_cons_self
  have hBounded := hSummable.bounded
  have hAmount : (0 + entry.amount).toInt =
      entry.amount.toInt := by
    rw [Int64.zero_add]
  rw [totalValue_cons] at hBounded
  refine ⟨hTarget, hRate, ?_, ?_, ?_, rfl⟩
  · exact fun other hOther =>
      hSummable.nonneg other (List.mem_cons_of_mem _ hOther)
  · rw [hAmount]
    exact hNonneg
  · rw [hAmount]
    exact hBounded

/- A sum of amounts that is small enough does not wrap. -/
theorem toInt_foldl_add
    {amounts : List Int64}
    (hNonneg : ∀ amount ∈ amounts, 0 ≤ amount.toInt)
    (hBounded : (amounts.map Int64.toInt).sum < 2 ^ 63) :
    (amounts.foldl (fun total amount => total + amount)
        0).toInt =
      (amounts.map Int64.toInt).sum := by
  have hEvery : ∀ (rest : List Int64) (total : Int64),
      0 ≤ total.toInt →
        (∀ amount ∈ rest, 0 ≤ amount.toInt) →
          total.toInt + (rest.map Int64.toInt).sum <
              2 ^ 63 →
            (rest.foldl (fun total amount => total + amount)
                total).toInt =
              total.toInt + (rest.map Int64.toInt).sum := by
    intro rest
    induction rest with
    | nil =>
        intro total _ _ _
        exact (Int.add_zero _).symm
    | cons amount rest ih =>
        intro total hBefore hNonneg hBounded
        rw [List.forall_mem_cons] at hNonneg
        rw [List.map_cons, List.sum_cons] at hBounded ⊢
        have hSum : 0 ≤ (rest.map Int64.toInt).sum := by
          refine List.sum_nonneg ?_
          intro value hValue
          rcases List.mem_map.mp hValue with
            ⟨other, hOther, rfl⟩
          exact hNonneg.2 other hOther
        have hNext : (total + amount).toInt =
            total.toInt + amount.toInt :=
          toInt_add_of_fits ⟨by omega, by omega⟩
        rw [List.foldl_cons,
          ih _ (by omega) hNonneg.2 (by omega), hNext]
        omega
  have hAll := hEvery amounts 0 (Int.le_refl 0) hNonneg
    (by
      change 0 + (amounts.map Int64.toInt).sum < 2 ^ 63
      omega)
  rw [hAll]
  exact Int.zero_add _

/- The sum of all candidates does not wrap around. -/
theorem Summable.toInt_foldl
    {utxos : List UtxoEntry}
    (hSummable : Summable utxos) :
    (utxos.foldl
        (fun (total : Int64) entry => total + entry.amount)
        0).toInt =
      totalValue utxos := by
  have hSame :
      ((utxos.map UtxoEntry.amount).map Int64.toInt).sum =
        totalValue utxos := by
    rw [List.map_map]
    rfl
  have hAll := @toInt_foldl_add
    (utxos.map UtxoEntry.amount)
    (by
      intro amount hAmount
      rcases List.mem_map.mp hAmount with
        ⟨entry, hEntry, rfl⟩
      exact hSummable.nonneg entry hEntry)
    (by
      rw [hSame]
      exact hSummable.bounded)
  rw [List.foldl_map, hSame] at hAll
  exact hAll

/- A pass that ends with enough has what it needs. -/
theorem gathers_of_gather
    (hTarget : 0 < target.toInt)
    (hRate : 0 ≤ feeRate.toInt)
    {entry : UtxoEntry}
    {rest : List UtxoEntry}
    (hOrdered : Summable (entry :: rest))
    {inputs : List UtxoEntry}
    {total fee : Int64}
    (hDone :
      gather target feeRate false rest 1 (0 + entry.amount)
          (feeRate * Int64.ofNat
            (estimateTxWeight 1 1 2420)) =
        ⟨inputs, total, fee⟩)
    (hFits :
      cost target feeRate (1 + inputs.length) < 2 ^ 63)
    (hEnough : target + fee ≤ total) :
    Gathers target feeRate (entry :: rest)
      ⟨entry :: inputs, total, fee⟩ := by
  have hUnder := hOrdered.underway hTarget hRate
  rcases gather_spec hUnder hDone hFits with
    ⟨hTaken, hSum, hFee, hFewest⟩
  dsimp only at hTaken hSum hFee hFewest
  have hAmount : (0 + entry.amount).toInt =
      entry.amount.toInt := by
    rw [Int64.zero_add]
  rw [hAmount] at hSum hFewest
  have hAll : totalValue (entry :: inputs) ≤
      totalValue (entry :: rest) := by
    have hLess := totalValue_take_le hUnder.nonneg
      inputs.length
    rw [← hTaken] at hLess
    rw [totalValue_cons, totalValue_cons]
    omega
  have hBounded := hOrdered.bounded
  have hNeeded := (toInt_estimate hTarget hRate hFits).2
  rw [← hFee] at hNeeded
  rw [Int64.le_iff_toInt_le, hNeeded, hSum] at hEnough
  have hWhole : (entry :: inputs) =
      (entry :: rest).take (entry :: inputs).length := by
    rw [List.length_cons, List.take_succ_cons, ← hTaken]
  have hFound : totalValue (entry :: inputs) < 2 ^ 63 := by
    omega
  refine ⟨?_, hWhole, hSum, ?_, hFound⟩
  · refine ⟨Nat.succ_pos _, ?_, ?_, ?_⟩
    · have hLength := congrArg List.length hTaken
      rw [List.length_take] at hLength
      dsimp only
      rw [List.length_cons, List.length_cons]
      omega
    · rw [Covers, ← hWhole, List.length_cons,
        Nat.add_comm, totalValue_cons]
      exact hEnough
    · intro fewer hPositive hFewer
      rcases fewer with _ | fewer
      · cases hPositive
      · have hLess := hFewest fewer
          (Nat.lt_of_succ_lt_succ hFewer)
        rw [Covers, List.take_succ_cons, totalValue_cons,
          Int.not_le, Nat.add_comm]
        exact hLess
  · rw [List.length_cons, Nat.add_comm]
    exact hFee

/- A selection that succeeds settles what a pass gathered. -/
theorem exists_gathers
    (sort : ValueSort)
    {utxos : List UtxoEntry}
    (hRate : 0 ≤ feeRate.toInt)
    (hSummable : Summable utxos)
    (hSuccess :
      (selectCoins sort utxos target feeRate).success = true)
    (hFits :
      cost target feeRate
          (selectCoins sort utxos target
            feeRate).inputs.length <
        2 ^ 63) :
    0 < target.toInt ∧
      ∃ found,
        Gathers target feeRate (sort.order utxos) found ∧
          selectCoins sort utxos target feeRate =
            settleChange target feeRate found := by
  have hOrdered := hSummable.perm (sort.perm utxos)
  unfold selectCoins at hSuccess hFits ⊢
  split at hSuccess
  · cases hSuccess
  rename_i hAsked
  rw [if_neg hAsked] at hFits ⊢
  rw [not_or, Int64.not_le, Int64.lt_iff_toInt_lt] at hAsked
  have hTarget : 0 < target.toInt := hAsked.1
  refine ⟨hTarget, ?_⟩
  dsimp only at hSuccess hFits ⊢
  split at hSuccess
  · cases hSuccess
  rename_i hFunds
  rw [if_neg hFunds] at hFits ⊢
  split at hSuccess
  · cases hSuccess
  rename_i hEnough
  rw [if_neg hEnough] at hFits ⊢
  clear hSuccess hFunds
  rcases hCandidates : sort.order utxos with _ | ⟨entry, rest⟩
  · have hNone := (sort.perm utxos).length_eq
    rw [hCandidates] at hNone
    have hEmpty := List.length_eq_zero_iff.mp hNone.symm
    rw [hEmpty] at hAsked
    exact absurd rfl hAsked.2
  rw [hCandidates] at hEnough hFits hOrdered
  have hInputs : ∀ found : Gathered,
      (settleChange target feeRate found).inputs =
        found.inputs :=
    fun _ => rfl
  rw [hInputs] at hFits
  rcases hDone :
      gather target feeRate false rest 1 (0 + entry.amount)
        (feeRate * Int64.ofNat
          (estimateTxWeight 1 1 2420))
    with ⟨inputs, total, fee⟩
  have hOne : cost target feeRate 1 < 2 ^ 63 := by
    refine Int.lt_of_le_of_lt (cost_mono hRate ?_) hFits
    rw [gather_take (Or.inr ⟨rfl, rfl⟩)]
    exact Nat.succ_pos _
  rcases gather_first hTarget hRate hOne
    (gather target feeRate false (entry :: rest) 0 0
      (feeRate * Int64.ofNat
        (estimateTxWeight 0 0 2420))).estFee with
    ⟨hFirst, hSecond⟩
  rw [hDone] at hFirst hSecond
  dsimp only at hFirst hSecond
  rw [hSecond] at hFits ⊢
  rw [hFirst] at hEnough
  dsimp only at hFits hEnough
  rw [List.length_cons, Nat.add_comm] at hFits
  exact ⟨_, gathers_of_gather hTarget hRate hOrdered hDone
    hFits (Int64.not_lt.mp hEnough), rfl⟩

/-
  A selection that succeeds takes the fewest of the largest
  coins that pay for the target and their own fee.
-/
theorem selectCoins_spec
    (sort : ValueSort)
    {utxos : List UtxoEntry}
    (hRate : 0 ≤ feeRate.toInt)
    (hSummable : Summable utxos)
    (hSuccess :
      (selectCoins sort utxos target feeRate).success = true)
    (hFits :
      cost target feeRate
          (selectCoins sort utxos target
            feeRate).inputs.length <
        2 ^ 63) :
    0 < target.toInt ∧
      Selected target feeRate (sort.order utxos)
        (selectCoins sort utxos target feeRate) := by
  rcases exists_gathers sort hRate hSummable hSuccess hFits
    with ⟨hTarget, found, hFound, hSettled⟩
  rw [hSettled]
  exact ⟨hTarget, settleChange_spec hTarget hRate hFound⟩

/-
  Where the largest coins can pay for the target and their
  own fee, the selection succeeds.
-/
theorem selectCoins_of_covers
    (sort : ValueSort)
    {utxos : List UtxoEntry}
    (hTarget : 0 < target.toInt)
    (hRate : 0 ≤ feeRate.toInt)
    (hSummable : Summable utxos)
    {count : Nat}
    (hCount :
      LeastCovers target feeRate (sort.order utxos) count) :
    (selectCoins sort utxos target feeRate).success = true ∧
      (selectCoins sort utxos target
          feeRate).inputs.length =
        count := by
  have hOrdered := hSummable.perm (sort.perm utxos)
  have hCovers := hCount.covers
  have hTaken :=
    totalValue_take_le hOrdered.nonneg count
  have hBounded := hOrdered.bounded
  have hFits : cost target feeRate count < 2 ^ 63 := by
    rw [Covers] at hCovers
    omega
  have hFunds : target.toInt ≤
      totalValue (sort.order utxos) := by
    have hFee :
        0 ≤ feeRate.toInt *
          ((estimateTxWeight count 1 2420 : Nat) : Int) :=
      Int.mul_nonneg hRate (by omega)
    rw [Covers, cost] at hCovers
    omega
  have hWithin := hCount.within
  have hPositive := hCount.positive
  have hLeast := hCount.least
  have hTotal := hOrdered.toInt_foldl
  rcases hCandidates : sort.order utxos with _ | ⟨entry, rest⟩
  · rw [hCandidates] at hWithin
    exact absurd hWithin (Nat.not_le_of_gt hPositive)
  have hAsked : ¬(target ≤ 0 ∨ utxos.isEmpty = true) := by
    rw [not_or, Int64.not_le, Int64.lt_iff_toInt_lt]
    refine ⟨hTarget, ?_⟩
    intro hEmpty
    have hNone := (sort.perm utxos).length_eq
    rw [hCandidates, List.isEmpty_iff.mp hEmpty] at hNone
    cases hNone
  rw [hCandidates] at hOrdered hCovers hWithin hLeast
  rw [hCandidates] at hTotal hFunds
  rw [selectCoins, if_neg hAsked]
  dsimp only
  rw [hCandidates, if_neg (by
    rw [Int64.not_lt, Int64.le_iff_toInt_le, hTotal]
    exact hFunds)]
  rcases count with _ | count
  · cases hPositive
  have hOne : cost target feeRate 1 < 2 ^ 63 :=
    Int.lt_of_le_of_lt
      (cost_mono hRate (Nat.succ_le_succ (Nat.zero_le _)))
      hFits
  have hUnder := hOrdered.underway hTarget hRate
  have hAmount : (0 + entry.amount).toInt =
      entry.amount.toInt := by
    rw [Int64.zero_add]
  have hLength := gather_length hUnder
    (Nat.le_of_succ_le_succ hWithin)
    (by
      rw [Covers, List.take_succ_cons, totalValue_cons]
        at hCovers
      rw [hAmount, Nat.add_comm]
      exact hCovers)
    (by
      intro fewer hFewer
      have hLess := hLeast (fewer + 1) (Nat.succ_pos _)
        (by omega)
      rw [Covers, List.take_succ_cons, totalValue_cons]
        at hLess
      rw [hAmount, Nat.add_comm 1]
      omega)
  rcases hDone :
      gather target feeRate false rest 1 (0 + entry.amount)
        (feeRate * Int64.ofNat
          (estimateTxWeight 1 1 2420))
    with ⟨inputs, total, fee⟩
  rw [hDone] at hLength
  rcases gather_first hTarget hRate hOne
    (gather target feeRate false (entry :: rest) 0 0
      (feeRate * Int64.ofNat
        (estimateTxWeight 0 0 2420))).estFee with
    ⟨hFirst, hSecond⟩
  rw [hDone] at hFirst hSecond
  dsimp only at hFirst hSecond hLength
  have hStop : ¬total < target + fee :=
    Int64.not_lt.mpr hLength.2
  rw [hSecond, hFirst, if_neg hStop]
  have hFound := gathers_of_gather hTarget hRate hOrdered
    hDone
    (by
      rw [hLength.1, Nat.add_comm]
      exact hFits)
    hLength.2
  exact ⟨(settleChange_spec hTarget hRate hFound).success,
    congrArg Nat.succ hLength.1⟩

end Passes

end Wallet

namespace Sample

open Wallet

def valueSort : ValueSort :=
  { order := fun entries =>
      entries.insertionSort fun entry next =>
        next.amount ≤ entry.amount
    perm := fun entries => List.perm_insertionSort _ entries
    descending := fun entries => by
      have : Std.Total fun entry next : UtxoEntry =>
          next.amount ≤ entry.amount :=
        ⟨fun entry next => Int64.le_total _ _⟩
      have : IsTrans UtxoEntry fun entry next =>
          next.amount ≤ entry.amount :=
        ⟨fun _ _ _ hFirst hSecond =>
          Int64.le_trans hSecond hFirst⟩
      exact List.pairwise_insertionSort _ entries }

end Sample

end Amarian
