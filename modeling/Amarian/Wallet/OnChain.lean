import Amarian.Chain.ActiveChain
import Amarian.Mining.Acceptable
import Amarian.Wallet.Rescan

/-
  A wallet that was rescanned over the chain of a node.

  Its coins are coins at the tip, which are worth no more
  than all the money; and it knows the height of the tip.

  Key definitions include:
    * `Wallet.ChainBlocks`
    * `Wallet.Current`

  Key theorems include:
    * `Wallet.current_of_rescan`
    * `Wallet.Current.coins`
    * `Wallet.isImmature_iff`
-/

------------------------------------------------------------
-- The Blocks Of A Chain
------------------------------------------------------------

namespace Amarian

namespace Wallet

/- The active chain, with or without genesis. -/
def ChainBlocks
    (env : ChainEnv)
    (state : ChainState)
    (blocks : List (Block × UInt32)) : Prop :=
  blocks =
      scannedBlocks state.db.records.blocks state.chain ∨
    blocks =
      (buildGenesisBlock env.crypto env.params, 0) ::
        scannedBlocks state.db.records.blocks state.chain

/- Genesis pays to nobody, so that scanning it finds nothing. -/
theorem scanBlock_genesis
    {c : Crypto}
    {params : ChainParams}
    {owned : List OwnedLock}
    (hOpenable : Openable owned)
    {wallet : Wallet}
    (hEmpty : wallet.utxos = []) :
    (scanBlock c owned wallet
        (buildGenesisBlock c params, 0)).utxos =
      [] := by
  have hStart : Found owned Utxo.empty wallet.utxos := by
    rw [hEmpty]
    exact .empty _
  have hNone :
      Utxo.addOutputs
          ((buildGenesisCoinbase params).txid c) 0
          (buildGenesisCoinbase params).isCoinbase 0
          (buildGenesisCoinbase params).outputs
          Utxo.empty =
        .ok Utxo.empty :=
    rfl
  have hFound :=
    (hStart.sublist (Found.scanInputs_sublist
      (buildGenesisCoinbase params).inputs
      { utxos := wallet.utxos
        spent := 0
        received := 0
        touches := false })).scanOutputs hOpenable hNone
  rcases hLeft :
      (scanBlock c owned wallet
        (buildGenesisBlock c params, 0)).utxos
    with _ | ⟨entry, rest⟩
  · rfl
  · have hHeld := hFound.held entry (by
      change entry ∈ (scanBlock c owned wallet
        (buildGenesisBlock c params, 0)).utxos
      rw [hLeft]
      exact List.mem_cons_self)
    cases hHeld

------------------------------------------------------------
-- Being Up To Date
------------------------------------------------------------

/- The wallet knows coins of the tip, and its height. -/
structure Current
    (c : Crypto)
    (signer : Signer)
    (state : ChainState)
    (wallet : Wallet) : Prop where
  found :
    Found (wallet.ownedLocks c signer) state.utxo
      wallet.utxos
  tip : wallet.tipHeight = state.tipHeight

theorem tipHeight_eq
    {env : ChainEnv}
    {state : ChainState}
    (hRooted : Rooted env state)
    {link : Link}
    (hLink : link ∈ state.index.tree)
    (hHash : link.hash = state.tip) :
    state.tipHeight = link.height := by
  rcases List.mem_map.mp hLink with ⟨entry, hEntry, rfl⟩
  have hFind :
      state.index.find state.tip = some entry := by
    rw [← hHash]
    exact hRooted.sourced.index.find_of_mem hEntry
  rw [ChainState.tipHeight, hFind]

/- The last block that is scanned has the height of the tip. -/
theorem last_height
    {env : ChainEnv}
    {state : ChainState}
    (hSound : SoundState env state)
    (hRooted : Rooted env state)
    (hDistinct :
      Set.InjOn (BlockHeader.hash env.crypto)
        (heldHeaders state))
    (hCalm : Calm env.plan) :
    (match
        (scannedBlocks state.db.records.blocks
          state.chain).getLast? with
      | none => 0
      | some last => last.2) =
      state.tipHeight := by
  have hTree := hSound.ok.index.tree
  rcases hSound.ok.ledger.tip_branch hTree
    state.index.genesis with
    ⟨link, hLink, hHash, hChain⟩
  rw [tipHeight_eq hRooted hLink hHash]
  rcases hParent : link.parent with _ | parent
  · have hRoot := hTree.branch_root hLink hParent
    have hLine := hTree.height_add_one hLink
    rw [← hChain] at hRoot
    have hOne : state.chain.length =
        link.height.toNat + 1 := by
      rw [hChain, branch, List.length_map, hLine]
    rw [hRoot]
    rw [hRoot] at hOne
    change 0 = link.height
    apply UInt32.toNat_inj.mp
    change 0 = link.height.toNat
    change 1 = _ at hOne
    omega
  · rcases hTree.child_cases hLink with
      hRoot | ⟨above, hAbove, -, -, hChild, -⟩
    · rw [hRoot] at hParent
      cases hParent
    have hUp : link.parent = some above.hash := by
      rw [hChild]
      rfl
    rcases hTree.exists_branch_eq_cons hAbove with
      ⟨below, hCons⟩
    rw [hTree.branch_step hLink hUp, hCons] at hChain
    have hReplay := hSound.synced hCalm
    rw [hChain] at hReplay
    rcases replay_cons.mp hReplay with
      ⟨before, block, result, -, hBlock, -⟩
    have hHeader :=
      hSound.sourced.header_eq hDistinct
        (fun body hBody => .inr (hBody.imp fun hash hStored =>
          ⟨body, hStored, rfl⟩)) hLink hBlock
    rw [hChain, scannedBlocks, bodiesAbove_cons hBlock,
      List.map_append, List.map_singleton,
      List.getLast?_append]
    change block.header.height = link.height
    rw [hHeader, (hTree.header_of_mem hLink).2]

/- What a rescan over the chain of a node finds. -/
theorem current_of_rescan
    {env : ChainEnv}
    (hCalm : Calm env.plan)
    {calls : List Call}
    (hDistinct :
      Set.InjOn (BlockHeader.hash env.crypto)
        {header | header ∈ offeredHeaders env calls})
    {signer : Signer}
    {before wallet : Wallet}
    {blocks : List (Block × UInt32)}
    (hBlocks : ChainBlocks env (run env calls) blocks)
    (hRescan :
      before.rescan env.crypto signer blocks =
        some wallet) :
    Current env.crypto signer (run env calls) wallet := by
  have hSound := SoundState.run hCalm calls
  have hRooted := Rooted.run env calls
  have hHeld := hDistinct.mono (heldHeaders_run env calls)
  have hReplay := hSound.synced hCalm
  rcases rescan_eq_some hRescan with
    ⟨hSeed, hParams, hAccounts, hTip, start, hStart, hUtxos⟩
  have hOwned :
      wallet.ownedLocks env.crypto signer =
        before.ownedLocks env.crypto signer := by
    unfold ownedLocks deriveLock
    rw [hSeed, hAccounts]
  have hOpenable := openable_ownedLocks env.crypto signer
    before
  have hLast := last_height hSound hRooted hHeld hCalm
  constructor
  · rw [hOwned, hUtxos]
    rcases hBlocks with rfl | rfl
    · exact found_of_replay hOpenable hStart hReplay
    · rw [List.foldl_cons]
      exact found_of_replay hOpenable
        (scanBlock_genesis hOpenable hStart) hReplay
  · rw [hTip, ← hLast]
    rcases hBlocks with rfl | rfl
    · rfl
    · rcases scannedBlocks
        (run env calls).db.records.blocks
        (run env calls).chain with _ | ⟨scanned, rest⟩
      · rfl
      · exact congrArg
          (fun last : Option (Block × UInt32) =>
            match last with
            | none => (0 : UInt32)
            | some last => last.2)
          List.getLast?_cons_cons

------------------------------------------------------------
-- Amounts And Outpoints
------------------------------------------------------------

/- Coins that are all different are worth no more than all. -/
theorem Found.totalValue_le
    {owned : List OwnedLock}
    {coins : Utxo}
    {utxos : List UtxoEntry}
    (hFound : Found owned coins utxos)
    (hPriced : coins.Priced)
    {total : Int}
    (hWorth : coins.Worth total) :
    totalValue utxos ≤ total := by
  rcases hWorth with ⟨unspent, hUnspent, rfl⟩
  have hAmount : ∀ entry ∈ utxos,
      coins.amountAt entry.outpoint =
        entry.amount.toInt := by
    intro entry hEntry
    rw [Utxo.amountAt, hFound.held entry hEntry]
    rfl
  have hSum :
      totalValue utxos =
        ∑ outpoint ∈
            (utxos.map UtxoEntry.outpoint).toFinset,
          coins.amountAt outpoint := by
    rw [List.sum_toFinset _ hFound.once, List.map_map]
    unfold totalValue
    congr 1
    exact List.map_congr_left fun entry hEntry =>
      (hAmount entry hEntry).symm
  rw [hSum]
  refine Finset.sum_le_sum_of_subset_of_nonneg ?_ ?_
  · intro outpoint hOutpoint
    rw [List.mem_toFinset] at hOutpoint
    rcases List.mem_map.mp hOutpoint with
      ⟨entry, hEntry, rfl⟩
    rw [hUnspent, hFound.held entry hEntry]
    rfl
  · intro outpoint _ _
    unfold Utxo.amountAt
    cases hCoin : coins outpoint with
    | none => exact Int.le_refl 0
    | some coin => exact hPriced outpoint coin hCoin

/- No transaction has an output at the sentinel's index. -/
theorem outputsHold_real
    {c : Crypto}
    {params : ChainParams}
    {network : Network}
    (hNetwork : params = paramsFor network)
    {tx : Transaction}
    (hTx : checkTransaction tx params = .ok ()) :
    Utxo.OutputsHold c
      (fun outpoint _ => outpoint.isNull = false) tx := by
  intro place coin hOutput
  have hMany := (checkTransaction_eq_ok.mp hTx).2.2.2.1
  have hLimit : params.blockLimits.tx.maxOutputs = 50000 := by
    rw [hNetwork]
    cases network <;> rfl
  have hPlace := (List.getElem?_eq_some_iff.mp hOutput).1
  rw [OutPoint.isNull, Bool.and_eq_false_iff]
  right
  rw [beq_eq_false_iff_ne]
  intro hSentinel
  have hNat := congrArg UInt32.toNat hSentinel
  change (UInt32.ofNat place).toNat = 4294967295 at hNat
  rw [UInt32.toNat_ofNat'] at hNat
  omega

/- What the chain at the tip says about the wallet's coins. -/
theorem Current.coins
    {env : ChainEnv}
    {network : Network}
    (hNetwork : env.params = paramsFor network)
    (hCalm : Calm env.plan)
    {calls : List Call}
    (hDistinct :
      Set.InjOn (BlockHeader.hash env.crypto)
        {header | header ∈ offeredHeaders env calls})
    {signer : Signer}
    {wallet : Wallet}
    (hCurrent :
      Current env.crypto signer (run env calls) wallet) :
    (∀ entry ∈ wallet.utxos, 0 ≤ entry.amount.toInt) ∧
      (∀ entry ∈ wallet.utxos,
        entry.outpoint.isNull = false) ∧
      totalValue wallet.utxos ≤ maxMoney.toInt := by
  have hSound := SoundState.run hCalm calls
  rcases hSound.tip_worth hNetwork hCalm
    (hDistinct.mono (heldHeaders_run env calls)) with
    ⟨hPriced, total, hWorth, hMoney⟩
  have hHeld := hCurrent.found.held
  have hReal :
      (run env calls).utxo.Every
        fun outpoint _ => outpoint.isNull = false :=
    replay_every
      (fun hash block hBlock =>
        (hSound.ok.ledger.bodies hash block hBlock).2)
      (fun tx hTx => outputsHold_real hNetwork hTx)
      (hSound.synced hCalm)
  refine ⟨?_, ?_, ?_⟩
  · exact fun entry hEntry =>
      hPriced _ _ (hHeld entry hEntry)
  · exact fun entry hEntry =>
      hReal _ _ (hHeld entry hEntry)
  · exact Int.le_trans
      (hCurrent.found.totalValue_le hPriced hWorth) hMoney

------------------------------------------------------------
-- Maturity
------------------------------------------------------------

/-
  A coin that the wallet takes for mature is so for the next
  block, unless the wallet's sum or the next height wraps.
-/
theorem isImmature_iff
    {params : ChainParams}
    (hDelay : 0 < params.coinbaseMaturity.toNat)
    {tipHeight : UInt32}
    {coin : Coin}
    (hMature : isMature params tipHeight coin = true) :
    isImmature params (tipHeight + 1) coin = false ↔
      (coin.isCoinbase = true →
        coin.height.toNat + params.coinbaseMaturity.toNat <
            2 ^ 32 ∧
          tipHeight.toNat + 1 < 2 ^ 32) := by
  unfold isImmature
  unfold isMature at hMature
  rcases hCoinbase : coin.isCoinbase with _ | _
  · simp
  · rw [hCoinbase] at hMature
    have hAge :
        (coin.height + params.coinbaseMaturity).toNat ≤
          tipHeight.toNat :=
      of_decide_eq_true hMature
    have hNext :
        (tipHeight + 1).toNat =
          (tipHeight.toNat + 1) % 2 ^ 32 :=
      UInt32.toNat_add tipHeight 1
    have hBound := tipHeight.toNat_lt
    have hOld := coin.height.toNat_lt
    have hLong := params.coinbaseMaturity.toNat_lt
    rw [UInt32.toNat_add] at hAge
    rw [Bool.true_and, decide_eq_false_iff_not, hNext]
    constructor
    · intro hAged _
      omega
    · intro hAged
      have hSmall := hAged rfl
      omega

end Wallet

end Amarian
