import Amarian.Consensus.Schedule

/-
  A schedule in whole numbers, and the one that is computed.

  The loops of the source run until the reward is spent.  A
  reward loses at least one facet an era, and an eighth while
  there are eight of them, so that no reward lasts as long as
  the loops are given here.

  Key definitions include:
    * `eraCountWithReward`
    * `issuanceEndHeight`
    * `exactReward`
    * `IssuanceParams.Fits`

  Key theorems include:
    * `exactReward_spent`
    * `rewardAfter_eq_exact`
    * `issuance_sums`
-/

------------------------------------------------------------
-- Counting Eras
------------------------------------------------------------

namespace Amarian

/- The loop of `EraCountWithReward`, if it gets to its end. -/
def countEras : Nat → UInt32 → Int64 → Option UInt32
  | 0, _, _ => none
  | fuel + 1, eras, reward =>
      if reward > 0 then
        countEras fuel (eras + 1) (nextReward reward)
      else
        some eras

/- How many eras pay anything. -/
def eraCountWithReward
    (params : IssuanceParams) : Option UInt32 :=
  if params.eraBlocks = 0 then
    some 0
  else
    countEras maxEras 0 params.initialReward

/- From this height on nothing is paid. -/
def issuanceEndHeight
    (params : IssuanceParams) : Option UInt64 :=
  (eraCountWithReward params).map fun eras =>
    eras.toUInt64 * params.eraBlocks.toUInt64

------------------------------------------------------------
-- Rewards In Whole Numbers
------------------------------------------------------------

/- What an era pays for each block, without any overflow. -/
def exactReward : Nat → Nat → Nat
  | 0, reward => reward
  | eras + 1, reward => exactReward eras (reward * 7 / 8)

theorem exactReward_succ
    (eras reward : Nat) :
    exactReward (eras + 1) reward =
      exactReward eras reward * 7 / 8 := by
  induction eras generalizing reward with
  | zero => rfl
  | succ eras ih => exact ih (reward * 7 / 8)

theorem exactReward_zero
    (eras : Nat) :
    exactReward eras 0 = 0 := by
  induction eras with
  | zero => rfl
  | succ eras ih => exact ih

theorem exactReward_antitone
    (reward : Nat) :
    Antitone fun eras => exactReward eras reward := by
  apply antitone_nat_of_succ_le
  intro eras
  rw [exactReward_succ]
  omega

theorem exactReward_add
    (first second reward : Nat) :
    exactReward (first + second) reward =
      exactReward second (exactReward first reward) := by
  induction first generalizing reward with
  | zero => rw [Nat.zero_add]; rfl
  | succ first ih =>
      rw [Nat.succ_add]
      exact ih (reward * 7 / 8)

/- Six eras halve a reward. -/
theorem exactReward_halves
    {reward bound : Nat}
    (hReward : reward < 2 * bound) :
    exactReward 6 reward < bound := by
  simp only [exactReward]
  omega

/- Six eras for each bit, and nothing is left of a reward. -/
theorem exactReward_bits
    {bits reward : Nat}
    (hReward : reward < 2 ^ bits) :
    exactReward (6 * bits) reward = 0 := by
  induction bits generalizing reward with
  | zero =>
      rw [Nat.pow_zero] at hReward
      exact Nat.lt_one_iff.mp hReward
  | succ bits ih =>
      rw [Nat.pow_succ, Nat.mul_comm] at hReward
      rw [Nat.mul_succ, Nat.add_comm, exactReward_add]
      exact ih (exactReward_halves hReward)

/- An `int64_t` is spent before the loops give up. -/
theorem exactReward_spent
    {reward : Nat}
    (hReward : reward < 2 ^ 63) :
    exactReward (maxEras - 1) reward = 0 := by
  have hEarly := exactReward_antitone reward
    (show 6 * 63 ≤ maxEras - 1 by decide)
  have hSpent := exactReward_bits hReward
  dsimp only at hEarly
  omega

/- What all the eras up to one pay, for a block of each. -/
def exactSum
    (eras reward : Nat) : Nat :=
  ∑ era ∈ Finset.range eras, exactReward era reward

/-
  No product and no sum of the schedule leaves an `int64_t`,
  whichever era they are computed for.
-/
structure IssuanceParams.Fits
    (params : IssuanceParams) : Prop where
  retained :
    ∀ eras,
      exactReward eras params.initialReward.toInt.toNat * 7 <
        2 ^ 63
  summed :
    ∀ eras,
      exactSum eras params.initialReward.toInt.toNat *
          params.eraBlocks.toNat <
        2 ^ 63

------------------------------------------------------------
-- The Computed Rewards
------------------------------------------------------------

/- One step of the loops, if the product fits. -/
theorem toInt_nextReward_exact
    {reward : Int64}
    {amount : Nat}
    (hAmount : reward.toInt = amount)
    (hFits : amount * 7 < 2 ^ 63) :
    (nextReward reward).toInt = (amount * 7 / 8 : Nat) := by
  have hProduct : (reward * 7).toInt = reward.toInt * 7 := by
    rw [Int64.toInt_mul]
    apply Int.bmod_eq_of_le <;> simp <;> omega
  rw [nextReward, Int64.toInt_div_of_ne_right _ _ (by decide),
    hProduct, hAmount]
  exact Int.tdiv_eq_ediv_of_nonneg (by omega)

theorem pos_iff_amount
    {reward : Int64}
    {amount : Nat}
    (hAmount : reward.toInt = amount) :
    reward > 0 ↔ 0 < amount := by
  rw [GT.gt, Int64.lt_iff_toInt_lt, hAmount, Int64.toInt_zero]
  exact Int.natCast_pos

theorem rewardAfter_exact
    {reward : Int64}
    {amount : Nat}
    (hAmount : reward.toInt = amount)
    (hFits : ∀ eras, exactReward eras amount * 7 < 2 ^ 63)
    (eras : Nat) :
    (rewardAfter eras reward).toInt =
      exactReward eras amount := by
  induction eras generalizing reward amount with
  | zero =>
      unfold rewardAfter exactReward
      split
      · exact hAmount
      · rename_i hSpent
        rw [pos_iff_amount hAmount] at hSpent
        rw [Int64.toInt_zero]
        omega
  | succ eras ih =>
      by_cases hPositive : reward > 0
      · rw [rewardAfter_of_pos hPositive]
        exact ih (toInt_nextReward_exact hAmount (hFits 0))
          fun more => hFits (more + 1)
      · have hSpent := Int64.not_lt.mp hPositive
        rw [pos_iff_amount hAmount, Nat.not_lt,
          Nat.le_zero] at hPositive
        rw [rewardAfter_of_not_pos hSpent, hPositive,
          exactReward_zero]
        rfl

/- The count is that of the eras ahead of the first spent. -/
theorem countEras_eq
    {reward : Int64}
    {amount last fuel : Nat}
    (hAmount : reward.toInt = amount)
    (hFits : ∀ eras, exactReward eras amount * 7 < 2 ^ 63)
    (hPaid : ∀ era < last, 0 < exactReward era amount)
    (hSpent : exactReward last amount = 0)
    (hFuel : last < fuel)
    (eras : UInt32) :
    countEras fuel eras reward =
      some (eras + UInt32.ofNat last) := by
  induction last generalizing reward amount fuel eras with
  | zero =>
      rcases Nat.exists_eq_succ_of_ne_zero hFuel.ne' with
        ⟨rest, rfl⟩
      have hEnds : ¬reward > 0 := by
        rw [pos_iff_amount hAmount]
        exact Nat.not_lt.mpr (Nat.le_of_eq hSpent)
      rw [countEras, if_neg hEnds]
      exact congrArg some (UInt32.add_zero eras).symm
  | succ last ih =>
      rcases Nat.exists_eq_succ_of_ne_zero
        (Nat.ne_zero_of_lt hFuel) with ⟨rest, rfl⟩
      have hGoesOn : reward > 0 :=
        (pos_iff_amount hAmount).mpr
          (hPaid 0 (Nat.succ_pos last))
      have hRest := ih
        (toInt_nextReward_exact hAmount (hFits 0))
        (fun more => hFits (more + 1))
        (fun era hEra => hPaid (era + 1)
          (Nat.succ_lt_succ hEra))
        hSpent (Nat.lt_of_succ_lt_succ hFuel) (eras + 1)
      rw [countEras, if_pos hGoesOn, hRest, UInt32.add_assoc,
        UInt32.add_comm 1, UInt32.ofNat_add]
      rfl

theorem exactSum_succ
    (eras reward : Nat) :
    exactSum (eras + 1) reward =
      reward + exactSum eras (reward * 7 / 8) := by
  rw [exactSum, Finset.sum_range_succ', Nat.add_comm]
  rfl

theorem exactSum_zero
    (eras : Nat) :
    exactSum eras 0 = 0 :=
  Finset.sum_eq_zero fun era _ => exactReward_zero era

/- Nothing is added once the reward is spent. -/
theorem exactSum_of_spent
    {last reward : Nat}
    (hSpent : exactReward last reward = 0)
    {eras : Nat}
    (hLate : last ≤ eras) :
    exactSum eras reward = exactSum last reward := by
  refine (Finset.sum_subset
    (Finset.range_subset_range.mpr hLate) ?_).symm
  intro era _ hOut
  rw [Finset.mem_range, Nat.not_lt] at hOut
  have hLess := exactReward_antitone reward hOut
  dsimp only at hLess
  omega

theorem issueFrom_exact
    {eraBlocks total reward : Int64}
    {blocks issued amount fuel : Nat}
    (hBlocks : eraBlocks.toInt = blocks)
    (hIssued : total.toInt = issued)
    (hAmount : reward.toInt = amount)
    (hFits : ∀ eras, exactReward eras amount * 7 < 2 ^ 63)
    (hRoom :
      ∀ eras, issued + exactSum eras amount * blocks <
        2 ^ 63) :
    (issueFrom eraBlocks fuel total reward).toInt =
      (issued + exactSum fuel amount * blocks : Nat) := by
  induction fuel generalizing total reward issued amount with
  | zero => simpa [issueFrom, exactSum] using hIssued
  | succ fuel ih =>
      unfold issueFrom
      by_cases hPositive : reward > 0
      · rw [if_pos hPositive]
        have hOne := hRoom 1
        have hNext := fun eras => hRoom (eras + 1)
        simp only [exactSum_succ, Nat.add_mul, ← Nat.add_assoc]
          at hNext hOne ⊢
        have hProduct :
            (reward * eraBlocks).toInt = (amount * blocks : Nat) := by
          rw [Int64.toInt_mul, hAmount, hBlocks,
            ← Int.natCast_mul]
          apply Int.bmod_eq_of_le <;> simp <;> omega
        have hSum :
            (total + reward * eraBlocks).toInt =
              (issued + amount * blocks : Nat) := by
          rw [Int64.toInt_add, hProduct, hIssued,
            ← Int.natCast_add]
          apply Int.bmod_eq_of_le <;> simp <;> omega
        exact ih hSum (toInt_nextReward_exact hAmount (hFits 0))
          (fun more => hFits (more + 1)) hNext
      · rw [if_neg hPositive, hIssued]
        rw [pos_iff_amount hAmount, Nat.not_lt,
          Nat.le_zero] at hPositive
        rw [hPositive, exactSum_zero, Nat.zero_mul,
          Nat.add_zero]

------------------------------------------------------------
-- The Schedule As A Whole
------------------------------------------------------------

namespace IssuanceParams.Fits

variable {params : IssuanceParams}

/- The first era that pays nothing. -/
theorem exists_last
    (hFits : params.Fits) :
    ∃ last < maxEras,
      ∀ era,
        exactReward era params.initialReward.toInt.toNat = 0 ↔
          last ≤ era := by
  have hSmall := hFits.retained 0
  have hSpent :=
    @exactReward_spent params.initialReward.toInt.toNat
      (by rw [exactReward] at hSmall; omega)
  have hSome :
      ∃ era,
        exactReward era params.initialReward.toInt.toNat = 0 :=
    ⟨_, hSpent⟩
  refine ⟨Nat.find hSome, ?_, ?_⟩
  · have hEarly := Nat.find_min' hSome hSpent
    unfold maxEras at hEarly ⊢
    omega
  · intro era
    refine ⟨Nat.find_min' hSome, ?_⟩
    intro hLate
    have hLess := exactReward_antitone
      params.initialReward.toInt.toNat hLate
    have hFirst := Nat.find_spec hSome
    dsimp only at hLess
    omega

theorem eraBlocks_ne
    (hEra : 0 < params.eraBlocks) :
    params.eraBlocks ≠ 0 := by
  intro hZero
  rw [hZero] at hEra
  exact absurd hEra (by decide)

theorem toInt_initialReward
    (hReward : 0 < params.initialReward) :
    params.initialReward.toInt =
      params.initialReward.toInt.toNat := by
  rw [Int64.lt_iff_toInt_lt, Int64.toInt_zero] at hReward
  omega

theorem toInt_blockReward
    (hEra : 0 < params.eraBlocks)
    (hReward : 0 < params.initialReward)
    (hFits : params.Fits)
    (height : UInt32) :
    (blockReward height params).toInt =
      exactReward (height.toNat / params.eraBlocks.toNat)
        params.initialReward.toInt.toNat := by
  have hSome := eraBlocks_ne hEra
  rw [blockReward, eraOfHeight, if_neg hSome, if_neg hSome,
    UInt32.toNat_div]
  exact rewardAfter_exact (toInt_initialReward hReward)
    hFits.retained _

/- However long the loop goes on, it has issued all. -/
theorem toInt_issueFrom
    (hReward : 0 < params.initialReward)
    (hFits : params.Fits)
    {last fuel : Nat}
    (hSpent :
      exactReward last params.initialReward.toInt.toNat = 0)
    (hFuel : last ≤ fuel) :
    (issueFrom (Int64.ofNat params.eraBlocks.toNat) fuel 0
        params.initialReward).toInt =
      (exactSum last params.initialReward.toInt.toNat *
        params.eraBlocks.toNat : Nat) := by
  have hBlocks :
      (Int64.ofNat params.eraBlocks.toNat).toInt =
        params.eraBlocks.toNat := by
    apply Int64.toInt_ofNat_of_lt
    have hLess := params.eraBlocks.toNat_lt
    omega
  have hNone : (0 : Int64).toInt = (0 : Nat) := rfl
  rw [issueFrom_exact hBlocks hNone
    (toInt_initialReward hReward) hFits.retained
    (by
      intro eras
      rw [Nat.zero_add]
      exact hFits.summed eras),
    Nat.zero_add, exactSum_of_spent hSpent hFuel]

theorem issuanceEndHeight_eq
    (hEra : 0 < params.eraBlocks)
    (hReward : 0 < params.initialReward)
    (hFits : params.Fits)
    {last : Nat}
    (hLast : last < maxEras)
    (hSpent :
      ∀ era,
        exactReward era params.initialReward.toInt.toNat = 0 ↔
          last ≤ era) :
    ∃ endHeight,
      issuanceEndHeight params = some endHeight ∧
        endHeight.toNat = last * params.eraBlocks.toNat := by
  have hCount :
      eraCountWithReward params = some (UInt32.ofNat last) := by
    rw [eraCountWithReward, if_neg (eraBlocks_ne hEra),
      countEras_eq (toInt_initialReward hReward)
        hFits.retained ?_ ((hSpent last).mpr (Nat.le_refl _))
        hLast,
      UInt32.zero_add]
    intro era hEarly
    apply Nat.pos_of_ne_zero
    rw [Ne, hSpent]
    exact Nat.not_le.mpr hEarly
  unfold maxEras at hLast
  have hProduct :
      last * params.eraBlocks.toNat < 2 ^ 64 :=
    calc
      last * params.eraBlocks.toNat < 1024 * 2 ^ 32 :=
        Nat.mul_lt_mul_of_lt_of_le hLast
          (Nat.le_of_lt params.eraBlocks.toNat_lt) (by decide)
      _ ≤ 2 ^ 64 := by decide
  refine ⟨_, by
    rw [issuanceEndHeight, hCount, Option.map_some], ?_⟩
  rw [UInt64.toNat_mul, UInt32.toNat_toUInt64,
    UInt32.toNat_toUInt64,
    UInt32.toNat_ofNat_of_lt' (Nat.lt_trans hLast (by decide)),
    Nat.mod_eq_of_lt hProduct]

end IssuanceParams.Fits

/-
  The reward never rises and is gone from a known height on;
  both loops come to their end, and what the blocks below
  that height are paid is the total.
-/
theorem issuance_sums
    (params : IssuanceParams)
    (hEra : 0 < params.eraBlocks)
    (hReward : 0 < params.initialReward)
    (hFits : params.Fits)
    (hEnd :
      ∀ endHeight,
        issuanceEndHeight params = some endHeight →
          endHeight.toNat < 2 ^ 32) :
    (∀ low high : UInt32, low ≤ high →
        blockReward high params ≤ blockReward low params) ∧
      (∀ more,
        issueFrom (Int64.ofNat params.eraBlocks.toNat)
            (maxEras + more) 0 params.initialReward =
          totalIssuance params) ∧
      ∃ endHeight,
        issuanceEndHeight params = some endHeight ∧
          (∀ height : UInt32,
            blockReward height params = 0 ↔
              endHeight.toNat ≤ height.toNat) ∧
          ∑ height ∈ Finset.range endHeight.toNat,
              (blockReward (UInt32.ofNat height)
                params).toInt =
            (totalIssuance params).toInt := by
  let amount := params.initialReward.toInt.toNat
  have hPaid := hFits.toInt_blockReward hEra hReward
  rcases hFits.exists_last with ⟨last, hLast, hSpent⟩
  have hIssued := fun fuel =>
    @IssuanceParams.Fits.toInt_issueFrom params hReward hFits
      last fuel ((hSpent last).mpr (Nat.le_refl _))
  have hTotal := hIssued maxEras (Nat.le_of_lt hLast)
  refine ⟨?_, ?_, ?_⟩
  · intro low high hLow
    rw [Int64.le_iff_toInt_le, hPaid, hPaid, Int.ofNat_le]
    rw [UInt32.le_iff_toNat_le] at hLow
    exact exactReward_antitone amount
      (Nat.div_le_div_right hLow)
  · intro more
    apply Int64.toInt_inj.mp
    rw [hIssued _ (by omega)]
    exact hTotal.symm
  · rcases hFits.issuanceEndHeight_eq hEra hReward hLast hSpent
      with ⟨endHeight, hIs, hHeight⟩
    have hBelow := hEnd endHeight hIs
    have hBlocks : 0 < params.eraBlocks.toNat := by
      rw [UInt32.lt_iff_toNat_lt] at hEra
      exact hEra
    refine ⟨endHeight, hIs, ?_, ?_⟩
    · intro height
      rw [hHeight, ← Nat.le_div_iff_mul_le hBlocks, ← hSpent,
        ← Int64.toInt_inj, hPaid, Int64.toInt_zero]
      exact Int.natCast_eq_zero
    · -- era by era, the heights are those of the loop
      have hEras := sum_range_eras
        (fun era => (exactReward era amount : Int)) hBlocks last
      rw [hHeight] at hBelow ⊢
      rw [Nat.mul_comm] at hEras
      refine Eq.trans ?_ (hEras.trans ?_)
      · refine Finset.sum_congr rfl ?_
        intro height hHere
        rw [Finset.mem_range] at hHere
        rw [hPaid, UInt32.toNat_ofNat_of_lt'
          (Nat.lt_trans hHere hBelow)]
      · rw [totalIssuance, hTotal, Nat.cast_mul, exactSum,
          Nat.cast_sum]

/- Eight times the first reward is more than is ever paid. -/
theorem exactSum_le
    (eras reward : Nat) :
    exactSum eras reward ≤ 8 * reward := by
  induction eras generalizing reward with
  | zero => exact Nat.zero_le _
  | succ eras ih =>
      have hRest := ih (reward * 7 / 8)
      rw [exactSum_succ]
      omega

theorem mainnetIssuance_fits :
    mainnetIssuance.Fits where
  retained := by
    intro eras
    have hLess := exactReward_antitone
      mainnetIssuance.initialReward.toInt.toNat
      (Nat.zero_le eras)
    have hFirst :
        mainnetIssuance.initialReward.toInt.toNat =
          100000000000 := by
      decide
    simp only [exactReward, hFirst] at hLess ⊢
    omega
  summed := by
    intro eras
    have hLess := exactSum_le eras
      mainnetIssuance.initialReward.toInt.toNat
    have hFirst :
        mainnetIssuance.initialReward.toInt.toNat =
          100000000000 := by
      decide
    have hBlocks :
        mainnetIssuance.eraBlocks.toNat = 105000 := by
      decide
    rw [hFirst] at hLess ⊢
    rw [hBlocks]
    omega

/- The assertions of the source about the mainnet schedule. -/
theorem issuance_sums_mainnet :
    ∃ endHeight,
      issuanceEndHeight mainnetIssuance = some endHeight ∧
        (∀ height : UInt32,
          blockReward height mainnetIssuance = 0 ↔
            endHeight.toNat ≤ height.toNat) ∧
        ∑ height ∈ Finset.range endHeight.toNat,
            (blockReward (UInt32.ofNat height)
              mainnetIssuance).toInt =
          (totalIssuance mainnetIssuance).toInt := by
  have hIs : issuanceEndHeight mainnetIssuance =
      some 18795000 := by
    decide +kernel
  have hAll := issuance_sums mainnetIssuance (by decide)
    (by decide) mainnetIssuance_fits
    (by
      intro endHeight hEnd
      rw [hIs, Option.some_inj] at hEnd
      subst hEnd
      decide)
  exact hAll.2.2

end Amarian
