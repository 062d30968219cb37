import Amarian.Wallet.OnChain

/-
  Chains as a wallet is given them: the blocks above genesis
  from the lowest on, each with its height.

  Key definitions include:
    * `Wallet.ActiveBlocks`

  Key theorems include:
    * `Wallet.ActiveBlocks.worth_le`
    * `Wallet.activeBlocks_of_run`
-/

------------------------------------------------------------
-- Blocks That Connect
------------------------------------------------------------

namespace Amarian

namespace Wallet

/-
  Blocks that pass their check and connect one after another,
  with the coins that this leads to.  Genesis creates none.
-/
inductive ActiveBlocks
    (c : Crypto)
    (params : ChainParams) :
    List (Block × UInt32) → Utxo → Prop
  | genesis :
      ActiveBlocks c params [] Utxo.empty
  | block
      {below : List (Block × UInt32)}
      {coins after : Utxo}
      {block : Block}
      {height : UInt32}
      {result : ConnectResult}
      (hBelow : ActiveBlocks c params below coins)
      (hHeight : height.toNat = below.length + 1)
      (hHeader : block.header.height = height)
      (hChecked : checkBlock c block params = .ok ())
      (hConnect :
        Utxo.connectBlock c params block coins =
          .ok (result, after)) :
      ActiveBlocks c params (below ++ [(block, height)])
        after

namespace ActiveBlocks

variable {c : Crypto} {params : ChainParams}
variable {blocks : List (Block × UInt32)} {coins : Utxo}

/- What holds of every output that passed holds of the coins. -/
theorem every
    {holds : OutPoint → Coin → Prop}
    (hHolds :
      ∀ tx, checkTransaction tx params = .ok () →
        Utxo.OutputsHold c holds tx)
    (hActive : ActiveBlocks c params blocks coins) :
    coins.Every holds := by
  induction hActive with
  | genesis => exact .empty
  | block _ _ _ hChecked hConnect ih =>
      refine ih.connectBlock ?_ hConnect
      intro tx hTx
      rcases checkBlock_eq_ok.mp hChecked with
        ⟨-, -, -, -, -, -, hForms, -⟩
      exact hHolds tx (hForms tx hTx)

theorem priced
    (hActive : ActiveBlocks c params blocks coins) :
    coins.Priced :=
  hActive.every fun _ hTx => outputsHold_priced hTx

theorem real
    {network : Network}
    (hNetwork : params = paramsFor network)
    (hActive : ActiveBlocks c params blocks coins) :
    coins.Every fun outpoint _ => outpoint.isNull = false :=
  hActive.every fun _ hTx => outputsHold_real hNetwork hTx

/- The blocks bring in no more than their rewards. -/
theorem worth
    (hReward : Exact.RewardFits params)
    (hActive : ActiveBlocks c params blocks coins) :
    ∃ total,
      coins.Worth total ∧
        total ≤
          rewardsUpTo params.issuance
            (UInt32.ofNat blocks.length) := by
  induction hActive with
  | genesis =>
      refine ⟨0, .empty, ?_⟩
      exact Finset.sum_nonneg fun below _ => (hReward _).1
  | @block below coins after block height result hBelow
      hHeight hHeader hChecked hConnect ih =>
      rcases ih with ⟨total, hWorth, hLe⟩
      rcases hWorth.connectBlock hReward hConnect with
        ⟨later, hLater, hAdded⟩
      refine ⟨later, hLater, ?_⟩
      have hBound := height.toNat_lt
      have hAbove :
          UInt32.ofNat (below.length + 1) = height := by
        rw [← hHeight, UInt32.ofNat_toNat]
      have hStep :
          height.toNat =
            (UInt32.ofNat below.length).toNat + 1 := by
        rw [UInt32.toNat_ofNat']
        omega
      rw [List.length_append, List.length_singleton, hAbove,
        rewardsUpTo_step hStep]
      rw [hHeader] at hAdded
      omega

theorem worth_le
    {network : Network}
    (hNetwork : params = paramsFor network)
    (hActive : ActiveBlocks c params blocks coins) :
    ∃ total, coins.Worth total ∧ total ≤ maxMoney.toInt := by
  have hSchedule : params.issuance.Sound := by
    rw [hNetwork]
    exact sound_paramsFor network
  rcases hActive.worth (rewardFits_of_sound hSchedule) with
    ⟨total, hWorth, hLe⟩
  have hIssued := sum_blockReward_le hSchedule
    (UInt32.ofNat blocks.length)
  have hMoney := totalIssuance_le network
  rw [← hNetwork] at hMoney
  unfold rewardsUpTo at hLe
  exact ⟨total, hWorth, by omega⟩

end ActiveBlocks

------------------------------------------------------------
-- The Chain Of A Node
------------------------------------------------------------

/-
  By induction on the branch, whose headers tell the heights
  of its blocks.
-/
theorem activeBlocks_of_replay
    {env : ChainEnv}
    {headers : Set BlockHeader}
    {bodies : Set Block}
    {state : ChainState}
    (hSourced : Sourced env headers bodies state)
    (hDistinct :
      Set.InjOn (BlockHeader.hash env.crypto) headers)
    (hBodies : ∀ block ∈ bodies, block.header ∈ headers)
    (hPasses :
      ∀ hash block,
        state.db.records.blocks hash = some block →
          checkBlock env.crypto block env.params = .ok ())
    {link : Link}
    (hLink : link ∈ state.index.tree)
    {coins : Utxo}
    (hReplay :
      replay env.crypto env.params state.db.records.blocks
          (branch state.index.tree link.hash) =
        some coins) :
    (scannedBlocks state.db.records.blocks
          (branch state.index.tree link.hash)).length =
        link.height.toNat ∧
      ActiveBlocks env.crypto env.params
        (scannedBlocks state.db.records.blocks
          (branch state.index.tree link.hash))
        coins := by
  have hTree := hSourced.index.tree
  revert coins
  refine hTree.grown.ancestor_induction
    (motive := fun link =>
      ∀ {coins : Utxo},
        replay env.crypto env.params state.db.records.blocks
            (branch state.index.tree link.hash) =
          some coins →
          (scannedBlocks state.db.records.blocks
                (branch state.index.tree link.hash)).length =
              link.height.toNat ∧
            ActiveBlocks env.crypto env.params
              (scannedBlocks state.db.records.blocks
                (branch state.index.tree link.hash))
              coins)
    ?_ ?_ link hLink
  · intro root hRoot hNone coins hReplay
    have hLine := hTree.height_add_one hRoot
    rw [hTree.branch_root hRoot hNone] at hReplay ⊢
    rw [ancestry, hTree.grown.lineage_root hRoot hNone] at hLine
    cases hReplay
    refine ⟨?_, .genesis⟩
    change 0 = _
    rw [List.length_singleton] at hLine
    omega
  · intro link hLink above hAbove hParent ih coins hReplay
    have hHeight : link.height.toNat =
        above.height.toNat + 1 := by
      have hLine := hTree.height_add_one hLink
      rw [ancestry, hTree.grown.lineage_step hLink hParent,
        List.length_cons] at hLine
      have hBelow := hTree.height_add_one hAbove
      rw [ancestry] at hBelow
      omega
    rcases hTree.exists_branch_eq_cons hAbove with
      ⟨below, hCons⟩
    rw [hTree.branch_step hLink hParent, hCons] at hReplay ⊢
    rcases replay_cons.mp hReplay with
      ⟨before, block, result, hBefore, hBlock, hConnect⟩
    rw [← hCons] at hBefore
    rcases ih hBefore with ⟨hLength, hActive⟩
    rw [hCons] at hLength hActive
    have hHeader := hSourced.header_eq hDistinct hBodies hLink
      hBlock
    have hOwn : block.header.height = link.height := by
      rw [hHeader, (hTree.header_of_mem hLink).2]
    rw [scannedBlocks, bodiesAbove_cons hBlock,
      List.map_append, List.map_singleton]
    refine ⟨?_, .block hActive ?_ rfl
      (hPasses link.hash block hBlock) hConnect⟩
    · rw [List.length_append, List.length_singleton]
      exact (congrArg Nat.succ hLength).trans hHeight.symm
    · rw [hOwn]
      exact hHeight.trans (congrArg Nat.succ hLength.symm)

/- The active chain of a node is such a chain. -/
theorem activeBlocks_of_run
    {env : ChainEnv}
    (hCalm : Calm env.plan)
    {calls : List Call}
    (hDistinct :
      Set.InjOn (BlockHeader.hash env.crypto)
        {header | header ∈ offeredHeaders env calls}) :
    ActiveBlocks env.crypto env.params
      (scannedBlocks (run env calls).db.records.blocks
        (run env calls).chain)
      (run env calls).utxo := by
  have hSound := SoundState.run hCalm calls
  have hSourced := Sourced.run env calls
  rcases hSound.ok.ledger.tip_branch hSound.ok.index.tree
    (run env calls).index.genesis with
    ⟨link, hLink, -, hChain⟩
  have hReplay := hSound.synced hCalm
  rw [hChain] at hReplay ⊢
  exact (activeBlocks_of_replay hSourced hDistinct
    (fun _ hBlock => header_mem_offered env hBlock)
    (fun hash block hBlock =>
      (hSound.ok.ledger.bodies hash block hBlock).2)
    hLink hReplay).2

end Wallet

end Amarian
