import Mathlib.Algebra.BigOperators.Group.Finset.Basic
import Mathlib.Algebra.BigOperators.Ring.Finset
import Mathlib.Algebra.Order.BigOperators.Group.Finset
import Mathlib.Order.Interval.Finset.Nat
import Amarian.Consensus.Params

/-
  The rewards of a schedule sum up to what it issues.

  Key definitions include:
    * `IssuanceParams.Sound`

  Key theorems include:
    * `sum_blockReward_le`
    * `sound_paramsFor`
-/

------------------------------------------------------------
-- Rewards
------------------------------------------------------------

namespace Amarian

/- Far from where a reward times seven would wrap. -/
def maxReward : Int := 1000000000000000000

theorem toInt_nextReward
    {reward : Int64}
    (hPositive : 0 < reward.toInt)
    (hSmall : reward.toInt ≤ maxReward) :
    (nextReward reward).toInt = reward.toInt * 7 / 8 := by
  unfold maxReward at hSmall
  have hProduct :
      (reward * 7).toInt = reward.toInt * 7 := by
    rw [Int64.toInt_mul]
    apply Int.bmod_eq_of_le <;> simp <;> omega
  rw [nextReward, Int64.toInt_div_of_ne_right _ _ (by decide),
    hProduct]
  exact Int.tdiv_eq_ediv_of_nonneg (by omega)

theorem rewardAfter_of_not_pos
    {reward : Int64}
    (hSpent : reward ≤ 0)
    (eras : Nat) :
    rewardAfter eras reward = 0 := by
  cases eras with
  | zero => exact if_neg (Int64.not_lt.mpr hSpent)
  | succ eras => exact if_pos hSpent

theorem rewardAfter_of_pos
    {reward : Int64}
    (hPositive : 0 < reward)
    (eras : Nat) :
    rewardAfter (eras + 1) reward =
      rewardAfter eras (nextReward reward) :=
  if_neg (Int64.not_le.mpr hPositive)

theorem rewardAfter_zero
    {reward : Int64}
    (hPositive : 0 < reward) :
    rewardAfter 0 reward = reward :=
  if_pos hPositive

/- A reward never grows and never turns negative. -/
theorem rewardAfter_bounds
    {reward : Int64}
    (hSmall : reward.toInt ≤ maxReward)
    (eras : Nat) :
    0 ≤ (rewardAfter eras reward).toInt ∧
      (rewardAfter eras reward).toInt ≤ maxReward := by
  induction eras generalizing reward with
  | zero =>
      unfold rewardAfter
      split
      · rename_i hPositive
        rw [GT.gt, Int64.lt_iff_toInt_lt] at hPositive
        exact ⟨Int.le_of_lt hPositive, hSmall⟩
      · decide
  | succ eras ih =>
      by_cases hPositive : 0 < reward
      · rw [rewardAfter_of_pos hPositive]
        rw [Int64.lt_iff_toInt_lt] at hPositive
        apply ih
        rw [toInt_nextReward hPositive hSmall]
        simp only [Int64.toInt_zero] at hPositive
        omega
      · rw [rewardAfter_of_not_pos (Int64.not_lt.mp hPositive)]
        decide

/- Once the reward is spent it stays so. -/
theorem rewardAfter_add_of_zero
    {reward : Int64}
    {eras : Nat}
    (hSpent : rewardAfter eras reward = 0)
    (more : Nat) :
    rewardAfter (eras + more) reward = 0 := by
  induction eras generalizing reward with
  | zero =>
      apply rewardAfter_of_not_pos
      apply Int64.not_lt.mp
      intro hPositive
      rw [rewardAfter_zero hPositive] at hSpent
      rw [hSpent] at hPositive
      exact absurd hPositive (by decide)
  | succ eras ih =>
      by_cases hPositive : 0 < reward
      · rw [rewardAfter_of_pos hPositive] at hSpent
        rw [Nat.add_right_comm, rewardAfter_of_pos hPositive]
        exact ih hSpent
      · exact rewardAfter_of_not_pos
          (Int64.not_lt.mp hPositive) _

/- What the eras pay a block, summed over the eras. -/
def paidBy
    (eras : Nat)
    (reward : Int64) : Int :=
  ∑ era ∈ Finset.range eras, (rewardAfter era reward).toInt

theorem paidBy_of_not_pos
    {reward : Int64}
    (hSpent : reward ≤ 0)
    (eras : Nat) :
    paidBy eras reward = 0 := by
  refine Finset.sum_eq_zero ?_
  intro era _
  rw [rewardAfter_of_not_pos hSpent]
  rfl

theorem paidBy_succ
    {reward : Int64}
    (hPositive : 0 < reward)
    (eras : Nat) :
    paidBy (eras + 1) reward =
      reward.toInt + paidBy eras (nextReward reward) := by
  rw [paidBy, Finset.sum_range_succ',
    rewardAfter_zero hPositive, Int.add_comm]
  congr 1
  refine Finset.sum_congr rfl ?_
  intro era _
  rw [rewardAfter_of_pos hPositive]

theorem paidBy_nonneg
    {reward : Int64}
    (hSmall : reward.toInt ≤ maxReward)
    (eras : Nat) :
    0 ≤ paidBy eras reward :=
  Finset.sum_nonneg fun era _ =>
    (rewardAfter_bounds hSmall era).1

/- Seven eighths of seven eighths: eight rewards in all. -/
theorem paidBy_le
    {reward : Int64}
    (hNonneg : 0 ≤ reward.toInt)
    (hSmall : reward.toInt ≤ maxReward)
    (eras : Nat) :
    paidBy eras reward ≤ 8 * reward.toInt := by
  induction eras generalizing reward with
  | zero =>
      rw [paidBy, Finset.sum_range_zero]
      omega
  | succ eras ih =>
      by_cases hPositive : 0 < reward
      · rw [paidBy_succ hPositive]
        rw [Int64.lt_iff_toInt_lt, Int64.toInt_zero]
          at hPositive
        have hNext := toInt_nextReward hPositive hSmall
        have hRest :
            paidBy eras (nextReward reward) ≤
              8 * (nextReward reward).toInt :=
          ih (by omega) (by omega)
        omega
      · rw [paidBy_of_not_pos (Int64.not_lt.mp hPositive)]
        omega

/- Past the last era that pays nothing is added. -/
theorem paidBy_le_of_zero
    {reward : Int64}
    (hSmall : reward.toInt ≤ maxReward)
    {last : Nat}
    (hSpent : rewardAfter last reward = 0)
    (eras : Nat) :
    paidBy eras reward ≤ paidBy last reward := by
  have hMore : paidBy (last + eras) reward =
      paidBy last reward := by
    rw [paidBy, Finset.sum_range_add]
    rw [Finset.sum_eq_zero
      (s := Finset.range eras) fun era _ => by
        rw [rewardAfter_add_of_zero hSpent]
        rfl]
    exact Int.add_zero _
  rw [← hMore]
  refine Finset.sum_le_sum_of_subset_of_nonneg ?_ ?_
  · exact Finset.range_subset_range.mpr
      (Nat.le_add_left ..)
  · intro era _ _
    exact (rewardAfter_bounds hSmall era).1

------------------------------------------------------------
-- The Total
------------------------------------------------------------

theorem issueFrom_toInt
    {eraBlocks total reward : Int64}
    {fuel : Nat}
    (hEra : 0 ≤ eraBlocks.toInt)
    (hTotal : 0 ≤ total.toInt)
    (hSmall : reward.toInt ≤ maxReward)
    (hFits :
      total.toInt +
          paidBy fuel reward * eraBlocks.toInt <
        2 ^ 63) :
    (issueFrom eraBlocks fuel total reward).toInt =
      total.toInt +
        paidBy fuel reward * eraBlocks.toInt := by
  induction fuel generalizing total reward with
  | zero => simp [issueFrom, paidBy]
  | succ fuel ih =>
      unfold issueFrom
      by_cases hPositive : 0 < reward
      · rw [if_pos hPositive]
        rw [paidBy_succ hPositive, Int.add_mul] at hFits ⊢
        rw [Int64.lt_iff_toInt_lt, Int64.toInt_zero]
          at hPositive
        have hNext := toInt_nextReward hPositive hSmall
        have hNextSmall :
            (nextReward reward).toInt ≤ maxReward := by
          omega
        have hRest :
            0 ≤ paidBy fuel (nextReward reward) *
              eraBlocks.toInt :=
          Int.mul_nonneg (paidBy_nonneg hNextSmall fuel) hEra
        have hEraPays : 0 ≤ reward.toInt * eraBlocks.toInt :=
          Int.mul_nonneg (Int.le_of_lt hPositive) hEra
        have hProduct :
            (reward * eraBlocks).toInt =
              reward.toInt * eraBlocks.toInt := by
          rw [Int64.toInt_mul]
          apply Int.bmod_eq_of_le <;> simp <;> omega
        have hSum :
            (total + reward * eraBlocks).toInt =
              total.toInt +
                reward.toInt * eraBlocks.toInt := by
          rw [Int64.toInt_add, hProduct]
          apply Int.bmod_eq_of_le <;> simp <;> omega
        rw [ih (by omega) hNextSmall (by omega), hSum]
        omega
      · rw [if_neg hPositive,
          paidBy_of_not_pos (Int64.not_lt.mp hPositive)]
        omega

/-
  What the constants of a network have to be like for its
  total to be exact: an era, a reward, and an `int64_t` that
  holds all of it.
-/
structure IssuanceParams.Sound
    (params : IssuanceParams) : Prop where
  era : 0 < params.eraBlocks.toNat
  positive : 0 ≤ params.initialReward.toInt
  small : params.initialReward.toInt ≤ maxReward
  ends : rewardAfter maxEras params.initialReward = 0
  fits :
    8 * params.initialReward.toInt * params.eraBlocks.toNat <
      2 ^ 63

namespace IssuanceParams.Sound

variable {params : IssuanceParams}

theorem blockReward_eq
    (hSound : params.Sound)
    (height : UInt32) :
    blockReward height params =
      rewardAfter (height.toNat / params.eraBlocks.toNat)
        params.initialReward := by
  have hEra : params.eraBlocks ≠ 0 := by
    intro hZero
    have hPositive := hSound.era
    rw [hZero] at hPositive
    exact absurd hPositive (by decide)
  rw [blockReward, eraOfHeight, if_neg hEra, if_neg hEra,
    UInt32.toNat_div]

theorem blockReward_bounds
    (hSound : params.Sound)
    (height : UInt32) :
    0 ≤ (blockReward height params).toInt ∧
      (blockReward height params).toInt ≤ maxReward := by
  rw [hSound.blockReward_eq]
  exact rewardAfter_bounds hSound.small _

theorem totalIssuance_toInt
    (hSound : params.Sound) :
    (totalIssuance params).toInt =
      paidBy maxEras params.initialReward *
        params.eraBlocks.toNat := by
  have hBound := paidBy_le hSound.positive hSound.small
    maxEras
  have hEra :
      (Int64.ofNat params.eraBlocks.toNat).toInt =
        params.eraBlocks.toNat := by
    apply Int64.toInt_ofNat_of_lt
    have hLt := params.eraBlocks.toNat_lt
    omega
  have hScaled := Int.mul_le_mul_of_nonneg_right hBound
    (Int.natCast_nonneg params.eraBlocks.toNat)
  have hFits := hSound.fits
  rw [totalIssuance, issueFrom_toInt]
  · rw [hEra, Int64.toInt_zero, Int.zero_add]
  · rw [hEra]
    exact Int.natCast_nonneg _
  · decide
  · exact hSound.small
  · rw [hEra, Int64.toInt_zero]
    omega

end IssuanceParams.Sound

/- A sum over whole eras, height by height. -/
theorem sum_range_eras
    (reward : Nat → Int)
    {era : Nat}
    (hEra : 0 < era)
    (eras : Nat) :
    ∑ height ∈ Finset.range (era * eras),
        reward (height / era) =
      (∑ k ∈ Finset.range eras, reward k) * era := by
  induction eras with
  | zero => simp
  | succ eras ih =>
      rw [Nat.mul_succ, Finset.sum_range_add, ih,
        Finset.sum_range_succ, Int.add_mul]
      congr 1
      rw [Finset.sum_congr rfl
        (g := fun _ => reward eras) fun height hHeight => by
          rw [Nat.mul_add_div hEra,
            Nat.div_eq_of_lt (Finset.mem_range.mp hHeight),
            Nat.add_zero]]
      rw [Finset.sum_const, Finset.card_range, nsmul_eq_mul,
        Int.mul_comm]

/- The rewards above genesis, up to any height. -/
theorem sum_blockReward_le
    {params : IssuanceParams}
    (hSound : params.Sound)
    (height : UInt32) :
    ∑ below ∈ Finset.Icc 1 height.toNat,
        (blockReward (UInt32.ofNat below) params).toInt ≤
      (totalIssuance params).toInt := by
  let era := params.eraBlocks.toNat
  let paid : Nat → Int := fun k =>
    (rewardAfter k params.initialReward).toInt
  have hEra : 0 < era := hSound.era
  have hTop : height.toNat < era * (height.toNat + 1) :=
    Nat.lt_of_lt_of_le (Nat.lt_succ_self _)
      (Nat.le_mul_of_pos_left _ hEra)
  calc
    ∑ below ∈ Finset.Icc 1 height.toNat,
        (blockReward (UInt32.ofNat below) params).toInt =
      ∑ below ∈ Finset.Icc 1 height.toNat,
        paid (below / era) := by
        refine Finset.sum_congr rfl ?_
        intro below hBelow
        have hLe := (Finset.mem_Icc.mp hBelow).2
        have hLt := height.toNat_lt
        rw [hSound.blockReward_eq,
          UInt32.toNat_ofNat_of_lt'
            (Nat.lt_of_le_of_lt hLe hLt)]
    _ ≤ ∑ below ∈ Finset.range (era * (height.toNat + 1)),
        paid (below / era) := by
        refine Finset.sum_le_sum_of_subset_of_nonneg ?_ ?_
        · intro below hBelow
          have hLe := (Finset.mem_Icc.mp hBelow).2
          exact Finset.mem_range.mpr (by omega)
        · intro below _ _
          exact (rewardAfter_bounds hSound.small _).1
    _ = paidBy (height.toNat + 1) params.initialReward *
        era := sum_range_eras paid hEra _
    _ ≤ paidBy maxEras params.initialReward * era :=
        Int.mul_le_mul_of_nonneg_right
          (paidBy_le_of_zero hSound.small hSound.ends _)
          (Int.natCast_nonneg era)
    _ = (totalIssuance params).toInt :=
        hSound.totalIssuance_toInt.symm

/- The schedules of the three networks. -/
theorem sound_paramsFor
    (network : Network) :
    (paramsFor network).issuance.Sound := by
  have hEnds : rewardAfter maxEras 100000000000 = 0 := by
    decide +kernel
  cases network with
  | mainnet =>
      exact ⟨by decide, by decide, by decide, hEnds,
        by decide⟩
  | testnet =>
      exact ⟨by decide, by decide, by decide, hEnds,
        by decide⟩
  | regtest =>
      exact ⟨by decide, by decide, by decide, hEnds,
        by decide⟩

end Amarian
