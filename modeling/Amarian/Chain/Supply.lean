import Mathlib.Algebra.BigOperators.Intervals
import Amarian.Chain.Invariant
import Amarian.Chain.Provenance
import Amarian.Consensus.Schedule
import Amarian.Utxo.Worth

/-
  The supply of a chain over whole runs.

  Key theorems include:
    * `supply_cap`
-/

------------------------------------------------------------
-- The Worth Of A Chain
------------------------------------------------------------

namespace Amarian

/- The rewards of the blocks above genesis. -/
def rewardsUpTo
    (params : IssuanceParams)
    (height : UInt32) : Int :=
  ∑ below ∈ Finset.Icc 1 height.toNat,
    (blockReward (UInt32.ofNat below) params).toInt

theorem rewardFits_of_sound
    {params : ChainParams}
    (hSound : params.issuance.Sound) :
    Exact.RewardFits params := by
  intro height
  rcases hSound.blockReward_bounds height with
    ⟨hNonneg, hSmall⟩
  unfold maxReward at hSmall
  exact ⟨hNonneg, by omega⟩

/- One block higher, one reward more. -/
theorem rewardsUpTo_step
    {params : IssuanceParams}
    {below above : UInt32}
    (hHeight : above.toNat = below.toNat + 1) :
    rewardsUpTo params above =
      rewardsUpTo params below +
        (blockReward above params).toInt := by
  rw [rewardsUpTo, hHeight,
    Finset.sum_Icc_succ_top (Nat.le_add_left ..), ← hHeight,
    UInt32.ofNat_toNat]
  rfl

theorem Sourced.worth_of_replay
    {env : ChainEnv}
    {headers : Set BlockHeader}
    {blocks : Set Block}
    {state : ChainState}
    (hReward : Exact.RewardFits env.params)
    (hSourced : Sourced env headers blocks state)
    (hDistinct :
      Set.InjOn (BlockHeader.hash env.crypto) headers)
    (hBlocks : ∀ block ∈ blocks, block.header ∈ headers)
    {link : Link}
    (hLink : link ∈ state.index.tree)
    {coins : Utxo}
    (hReplay :
      replay env.crypto env.params state.db.records.blocks
          (branch state.index.tree link.hash) =
        some coins) :
    ∃ total,
      coins.Worth total ∧
        total ≤
          rewardsUpTo env.params.issuance link.height := by
  have hTree := hSourced.index.tree
  revert coins
  refine hTree.grown.ancestor_induction
    (motive := fun link =>
      ∀ {coins : Utxo},
        replay env.crypto env.params state.db.records.blocks
            (branch state.index.tree link.hash) =
          some coins →
          ∃ total,
            coins.Worth total ∧
              total ≤ rewardsUpTo env.params.issuance
                link.height)
    ?_ ?_ link hLink
  · intro root hRoot hNone coins hReplay
    rw [hTree.branch_root hRoot hNone] at hReplay
    cases hReplay
    refine ⟨0, .empty, ?_⟩
    exact Finset.sum_nonneg fun below _ => (hReward _).1
  · intro link hLink above hAbove hParent ih coins hReplay
    rcases hTree.exists_branch_eq_cons hAbove with
      ⟨below, hCons⟩
    rw [hTree.branch_step hLink hParent, hCons] at hReplay
    rcases replay_cons.mp hReplay with
      ⟨before, block, result, hBefore, hBlock, hConnect⟩
    rw [← hCons] at hBefore
    rcases ih hBefore with ⟨total, hWorth, hLe⟩
    rcases hWorth.connectBlock hReward hConnect with
      ⟨later, hLater, hAdded⟩
    have hHeight : link.height.toNat =
        above.height.toNat + 1 := by
      have hLine := hTree.height_add_one hLink
      rw [ancestry, hTree.grown.lineage_step hLink hParent,
        List.length_cons] at hLine
      have hBelow := hTree.height_add_one hAbove
      rw [ancestry] at hBelow
      omega
    rw [hSourced.header_eq hDistinct hBlocks hLink hBlock,
      ← (hTree.header_of_mem hLink).2] at hAdded
    refine ⟨later, hLater, ?_⟩
    rw [rewardsUpTo_step hHeight]
    omega

------------------------------------------------------------
-- Exact Sums In The Store
------------------------------------------------------------

/-
  The sums that connecting a block computes, over whatever
  coins the store and the changes above it hold.
-/
theorem connectBlock_exact
    {env : ChainEnv}
    (hCalm : Calm env.plan)
    (hReward : Exact.RewardFits env.params)
    (block : Block)
    (cache : CoinsCache)
    (db : ChainDb) :
    (connectBlock env.crypto env.params
        (ChainDb.coinsView env.plan) block cache
        db).1.1.map
        (fun result =>
          (result.undo, result.totalFees.toInt)) =
      (Exact.connectBlock env.crypto env.params block
        (cache.lookup db.records.coins)).map
        (fun done => (done.1, done.2.1)) := by
  rcases hRun : connectBlock env.crypto env.params
    (ChainDb.coinsView env.plan) block cache db with
    ⟨⟨outcome, later⟩, after⟩
  have hRight := (connectBlock_trusted hRun).2
    (Or.inl hCalm)
  rw [← Exact.connectBlock_eq env.crypto hReward, hRight]
  cases outcome with
  | error error => rfl
  | ok result => rfl

/-
  In every state that any calls lead to, the coins are worth
  no more than the rewards of the chain and so no more than
  the schedule issues; and no sum on the way wraps around:
  connecting any block over any coins gives the verdict and
  the fees that unbounded integers give.
-/
theorem supply_cap
    (env : ChainEnv)
    (network : Network)
    (hParams : env.params = paramsFor network)
    (hCalm : Calm env.plan)
    (calls : List Call)
    (hDistinct :
      Set.InjOn (BlockHeader.hash env.crypto)
        {header | header ∈ offeredHeaders env calls}) :
    (∃ tip total,
      (run env calls).index.find (run env calls).tip =
          some tip ∧
        (run env calls).utxo.Worth total ∧
        total ≤
          rewardsUpTo env.params.issuance tip.height ∧
        rewardsUpTo env.params.issuance tip.height ≤
          (totalIssuance env.params.issuance).toInt) ∧
      (∀ outputs,
        checkOutputAmounts 0 outputs =
          Exact.checkOutputAmounts 0 outputs) ∧
      ∀ block cache db,
        (connectBlock env.crypto env.params
            (ChainDb.coinsView env.plan) block cache
            db).1.1.map
            (fun result =>
              (result.undo, result.totalFees.toInt)) =
          (Exact.connectBlock env.crypto env.params block
            (cache.lookup db.records.coins)).map
            (fun done => (done.1, done.2.1)) := by
  have hSchedule : env.params.issuance.Sound := by
    rw [hParams]
    exact sound_paramsFor network
  have hReward := rewardFits_of_sound hSchedule
  refine ⟨?_, ?_, ?_⟩
  · have hSound := SoundState.run hCalm calls
    have hSourced := Sourced.run env calls
    rcases hSound.ok.ledger.tip_branch hSound.ok.index.tree
      (run env calls).index.genesis with
      ⟨link, hLink, hHash, hChain⟩
    have hReplay := hSound.synced hCalm
    rw [hChain] at hReplay
    rcases hSourced.worth_of_replay hReward hDistinct
      (fun _ hBlock => header_mem_offered env hBlock) hLink
      hReplay with ⟨total, hWorth, hLe⟩
    rcases List.mem_map.mp hLink with ⟨entry, hEntry, rfl⟩
    refine ⟨entry, total, ?_, hWorth, hLe,
      sum_blockReward_le hSchedule entry.height⟩
    rw [show (run env calls).tip = entry.hash from hHash.symm]
    exact hSound.ok.index.find_of_mem hEntry
  · exact fun outputs => Exact.checkOutputAmounts_eq
      Exact.denotes_zero.1 outputs
  · exact fun block cache db =>
      connectBlock_exact hCalm hReward block cache db

namespace Sample

theorem supply_cap_reorganisation :
    ∃ tip total,
      (run env reorganisation).index.find
            (run env reorganisation).tip =
          some tip ∧
        (run env reorganisation).utxo.Worth total ∧
        total ≤
          rewardsUpTo env.params.issuance tip.height ∧
        rewardsUpTo env.params.issuance tip.height ≤
          (totalIssuance env.params.issuance).toInt := by
  have hDistinct :
      ∀ first ∈ offeredHeaders env reorganisation,
        ∀ second ∈ offeredHeaders env reorganisation,
          first.hash env.crypto = second.hash env.crypto →
            first = second := by
    rw [env_eq]
    decide +kernel
  have hPlan : Reliable env.plan := fun _ _ => rfl
  exact (supply_cap env .regtest rfl hPlan.calm
    reorganisation fun first hFirst second hSecond =>
      hDistinct first hFirst second hSecond).1

end Sample

end Amarian
