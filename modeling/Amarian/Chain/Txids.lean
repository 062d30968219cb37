import Amarian.Chain.Provenance
import Amarian.Chain.Reconnection
import Amarian.Consensus.WireFormat
import Amarian.Utxo.Txids

/-
  Transaction ids along the active chain.

  Key definitions include:
    * `heldHeaders`
    * `heldTransactions`

  Key theorems include:
    * `txids_distinct`
-/

------------------------------------------------------------
-- What A State Holds
------------------------------------------------------------

namespace Amarian

/- The headers of the index and of the stored bodies. -/
def heldHeaders
    (state : ChainState) : Set BlockHeader :=
  {header |
    (∃ link ∈ state.index.tree, link.header = header) ∨
      ∃ hash block,
        state.db.records.blocks hash = some block ∧
          block.header = header}

/- The transactions of genesis and of the stored bodies. -/
def heldTransactions
    (env : ChainEnv)
    (state : ChainState) : Set Transaction :=
  {tx |
    tx ∈ (buildGenesisBlock env.crypto
        env.params).transactions ∨
      ∃ hash block,
        state.db.records.blocks hash = some block ∧
          tx ∈ block.transactions}

section Tracing

variable {env : ChainEnv} {state : ChainState}

theorem SoundState.sourced
    (hSound : SoundState env state) :
    Sourced env (heldHeaders state)
      {block |
        ∃ hash, state.db.records.blocks hash = some block}
      state where
  index := hSound.ok.index
  links := fun link hLink => .inl ⟨link, hLink, rfl⟩
  bodies := by
    intro hash block hBlock
    rcases hSound.ok.ledger.bodies hash block hBlock with
      ⟨hHash, hPasses⟩
    exact ⟨⟨hash, hBlock⟩, hHash, hPasses⟩

------------------------------------------------------------
-- Blocks That Passed Their Check
------------------------------------------------------------

/- What tracing needs of the transactions of a block. -/
theorem checkBlock_counts
    {c : Crypto}
    {params : ChainParams}
    {network : Network}
    {block : Block}
    (hParams : params = paramsFor network)
    (hPasses : checkBlock c block params = .ok ()) :
    ∀ tx ∈ block.transactions,
      tx.inputs ≠ [] ∧
        tx.inputs.length < 2 ^ 64 ∧
        tx.outputs.length ≤ 2 ^ 32 := by
  rcases checkBlock_eq_ok.mp hPasses with
    ⟨-, -, -, -, -, -, hTransactions, -⟩
  intro tx hTx
  rcases checkTransaction_eq_ok.mp (hTransactions tx hTx) with
    ⟨hInputs, -, hFewInputs, hFewOutputs, -⟩
  rw [hParams, paramsFor_blockLimits]
    at hFewInputs hFewOutputs
  refine ⟨hInputs, ?_, ?_⟩
  · exact Nat.lt_of_le_of_lt hFewInputs (by decide)
  · exact Nat.le_trans hFewOutputs (by decide)

/- A block that passed its check, higher than the history. -/
theorem Utxo.Traced.connectChecked
    {c : Crypto}
    {params : ChainParams}
    {network : Network}
    {height : Nat}
    {seen : List Transaction}
    {coins : Utxo}
    {all : Set Transaction}
    {block : Block}
    (hTraced : Utxo.Traced c height seen coins)
    (hParams : params = paramsFor network)
    (hIds : Utxo.IdsTellInputs c all)
    (hSeen : ∀ tx ∈ seen, tx ∈ all)
    (hTxs : ∀ tx ∈ block.transactions, tx ∈ all)
    (hPasses : checkBlock c block params = .ok ())
    (hHeight : height < block.header.height.toNat) :
    CreatesAnew
      (fun done =>
        Utxo.Traced c block.header.height.toNat
          (block.transactions ++ seen) done.2)
      (Utxo.connectBlock c params block coins) := by
  have hCounts := checkBlock_counts hParams hPasses
  exact hTraced.connectBlock hIds hSeen hTxs
    (checkBlock_eq_ok.mp hPasses).2.2.2.1
    (fun tx hTx => (hCounts tx hTx).1)
    (fun tx hTx => (hCounts tx hTx).2.2) hHeight

theorem heldTransactions_counts
    {network : Network}
    (hSound : SoundState env state)
    (hParams : env.params = paramsFor network) :
    ∀ tx ∈ heldTransactions env state,
      tx.inputs.length < 2 ^ 64 := by
  rintro tx (hGenesis | ⟨hash, block, hBlock, hTx⟩)
  · rw [List.mem_singleton.mp hGenesis]
    exact Nat.one_lt_two_pow (by decide)
  · exact (checkBlock_counts hParams
      (hSound.ok.ledger.bodies hash block hBlock).2 tx
      hTx).2.1

/- The only transaction of genesis is its coinbase. -/
theorem traced_genesis
    (c : Crypto)
    (params : ChainParams) :
    Utxo.Traced c 0 (buildGenesisBlock c params).transactions
      Utxo.empty where
  distinct := List.nodup_singleton _
  created := fun _ hCoin => absurd rfl hCoin
  spent := by
    intro tx hTx hPlain
    rw [List.mem_singleton.mp hTx] at hPlain
    cases hPlain
  coinbases := by
    intro tx hTx _ input hInput
    rw [List.mem_singleton.mp hTx] at hInput
    rw [List.mem_singleton.mp hInput]
    rfl

------------------------------------------------------------
-- Tracing The Chain
------------------------------------------------------------

/- The bodies of a branch, with the tip first. -/
def BodiesAlong
    (env : ChainEnv)
    (blocks : Hash256 → Option Block)
    (chain : List Hash256)
    (bodies : List Block) : Prop :=
  ∃ hashes,
    chain =
        hashes ++
          [(buildGenesisBlock env.crypto
            env.params).header.hash env.crypto] ∧
      hashes.map blocks = bodies.map some

/- The transactions of a chain, those of genesis last. -/
def chainTransactions
    (env : ChainEnv)
    (bodies : List Block) : List Transaction :=
  (bodies ++ [buildGenesisBlock env.crypto env.params]).flatMap
    Block.transactions

theorem BodiesAlong.transactions_held
    {chain : List Hash256}
    {bodies : List Block}
    (hBodies :
      BodiesAlong env state.db.records.blocks chain bodies) :
    ∀ tx ∈ chainTransactions env bodies,
      tx ∈ heldTransactions env state := by
  rcases hBodies with ⟨hashes, -, hStored⟩
  intro tx hTx
  rcases List.mem_flatMap.mp hTx with ⟨block, hBlock, hMember⟩
  rcases List.mem_append.mp hBlock with hBody | hGenesis
  · have hSome :
        some block ∈ hashes.map state.db.records.blocks := by
      rw [hStored]
      exact List.mem_map_of_mem hBody
    rcases List.mem_map.mp hSome with ⟨hash, -, hFound⟩
    exact .inr ⟨hash, block, hFound, hMember⟩
  · rw [List.mem_singleton.mp hGenesis] at hMember
    exact .inl hMember

theorem SoundState.traced_of_replay
    {network : Network}
    (hSound : SoundState env state)
    (hParams : env.params = paramsFor network)
    (hDistinct :
      Set.InjOn (BlockHeader.hash env.crypto)
        (heldHeaders state))
    {all : Set Transaction}
    (hIds : Utxo.IdsTellInputs env.crypto all)
    (hHeld : heldTransactions env state ⊆ all)
    {link : Link}
    (hLink : link ∈ state.index.tree)
    {coins : Utxo}
    (hReplay :
      replay env.crypto env.params state.db.records.blocks
          (branch state.index.tree link.hash) =
        some coins) :
    ∃ bodies,
      BodiesAlong env state.db.records.blocks
          (branch state.index.tree link.hash) bodies ∧
        Utxo.Traced env.crypto link.height.toNat
          (chainTransactions env bodies) coins := by
  have hTree := hSound.ok.index.tree
  revert coins
  refine hTree.grown.ancestor_induction
    (motive := fun link =>
      ∀ {coins : Utxo},
        replay env.crypto env.params state.db.records.blocks
            (branch state.index.tree link.hash) =
          some coins →
          ∃ bodies,
            BodiesAlong env state.db.records.blocks
                (branch state.index.tree link.hash)
                bodies ∧
              Utxo.Traced env.crypto link.height.toNat
                (chainTransactions env bodies) coins)
    ?_ ?_ link hLink
  · intro root hRoot hNone coins hReplay
    have hSame :=
      hTree.grown.root_unique hRoot hTree.root_mem hNone rfl
    rw [hTree.branch_root hRoot hNone] at hReplay ⊢
    cases hReplay
    refine ⟨[], ⟨[], ?_, rfl⟩, ?_⟩
    · rw [hSame]
      rfl
    · rw [hSame]
      exact traced_genesis env.crypto env.params
  · intro link hLink above hAbove hParent ih coins hReplay
    rcases hTree.exists_branch_eq_cons hAbove with
      ⟨below, hCons⟩
    rw [hTree.branch_step hLink hParent] at hReplay ⊢
    rw [hCons] at hReplay
    rcases replay_cons.mp hReplay with
      ⟨before, block, result, hBefore, hBlock, hConnect⟩
    rw [← hCons] at hBefore
    rcases ih hBefore with ⟨bodies, hBodies, hTraced⟩
    have hPasses := (hSound.ok.ledger.bodies link.hash block
      hBlock).2
    have hHeader :=
      hSound.sourced.header_eq hDistinct
        (by
          rintro body ⟨hash, hBody⟩
          exact .inr ⟨hash, body, hBody, rfl⟩)
        hLink hBlock
    have hHeight : block.header.height = link.height := by
      rw [hHeader, (hTree.header_of_mem hLink).2]
    have hAboveHeight :
        above.height.toNat < link.height.toNat := by
      have hLine := hTree.height_add_one hLink
      rw [ancestry, hTree.grown.lineage_step hLink hParent,
        List.length_cons] at hLine
      have hBelow := hTree.height_add_one hAbove
      rw [ancestry] at hBelow
      omega
    rw [← hHeight] at hAboveHeight
    have hAnew := hTraced.connectChecked hParams hIds
      (fun tx hTx => hHeld (hBodies.transactions_held tx hTx))
      (fun tx hTx => hHeld (.inr ⟨_, block, hBlock, hTx⟩))
      hPasses hAboveHeight
    rw [hConnect] at hAnew
    refine ⟨block :: bodies, ?_, ?_⟩
    · rcases hBodies with ⟨hashes, hChain, hStored⟩
      refine ⟨link.hash :: hashes, ?_, ?_⟩
      · rw [hChain, List.cons_append]
      · rw [List.map_cons, List.map_cons, hStored, hBlock]
    · rw [hHeight] at hAnew
      exact hAnew

end Tracing

------------------------------------------------------------
-- Distinct Ids
------------------------------------------------------------

/-
  In every state on the way, and so before every block that
  an activation connects: the ids along the active chain are
  distinct, and no block that passed its check creates an
  output on top of it that is still there.
-/
theorem txids_distinct
    (env : ChainEnv)
    (network : Network)
    (hParams : env.params = paramsFor network)
    (hCalm : Calm env.plan)
    (state : ChainState)
    (hLeads :
      Leads env (.fresh env.crypto env.params) state)
    (hDistinct :
      Set.InjOn (BlockHeader.hash env.crypto)
        (heldHeaders state))
    (hTxids :
      Set.InjOn env.crypto.doubleSha256
        (Transaction.serializeWithoutWitnesses ''
          heldTransactions env state)) :
    (∃ bodies,
      BodiesAlong env state.db.records.blocks state.chain
          bodies ∧
        ((chainTransactions env bodies).map
          (Transaction.txid env.crypto)).Nodup) ∧
      ∀ tip block,
        state.index.find state.tip = some tip →
          block.header.height.toNat =
              tip.height.toNat + 1 →
          checkBlock env.crypto block env.params = .ok () →
          Set.InjOn env.crypto.doubleSha256
            (Transaction.serializeWithoutWitnesses ''
              (heldTransactions env state ∪
                {tx | tx ∈ block.transactions})) →
          (connectBlock env.crypto env.params
              (ChainDb.coinsView env.plan) block
              state.coins state.db).1.1 ≠
            .error .txCreatesExistingOutpoint := by
  have hSound := hLeads.sound hCalm (.fresh env)
  have hCounts := heldTransactions_counts hSound hParams
  rcases hSound.ok.ledger.tip_branch hSound.ok.index.tree
    state.index.genesis with
    ⟨link, hLink, hHash, hChain⟩
  have hReplay := hSound.synced hCalm
  constructor
  · rw [hChain] at hReplay ⊢
    rcases hSound.traced_of_replay hParams hDistinct
      (Utxo.idsTellInputs hTxids hCounts) (le_refl _) hLink hReplay
      with ⟨bodies, hBodies, hTraced⟩
    exact ⟨bodies, hBodies, hTraced.distinct⟩
  · intro tip block hTip hHeight hPasses hMore
    have hBlockCounts := checkBlock_counts hParams hPasses
    have hIds :=
      Utxo.idsTellInputs hMore fun tx hTx =>
        hTx.elim (hCounts tx)
          fun hHere => (hBlockCounts tx hHere).2.1
    rw [hChain] at hReplay
    rcases hSound.traced_of_replay hParams hDistinct hIds
      Set.subset_union_left hLink hReplay with
      ⟨bodies, hBodies, hTraced⟩
    have hSame : tip.toLink = link := by
      rcases IndexOk.mem_of_find hTip with ⟨hMember, hEntry⟩
      exact hSound.ok.index.tree.grown.key_injective
        (IndexOk.link_mem hMember) hLink
        (hEntry.trans hHash.symm)
    have hHigher :
        link.height.toNat < block.header.height.toNat := by
      rw [← hSame, hHeight]
      exact Nat.lt_succ_self _
    have hAnew := hTraced.connectChecked hParams hIds
      (fun tx hTx => .inl (hBodies.transactions_held tx hTx))
      (fun _ hTx => .inr hTx) hPasses hHigher
    rcases hRun : connectBlock env.crypto env.params
      (ChainDb.coinsView env.plan) block state.coins
      state.db with ⟨⟨outcome, later⟩, after⟩
    have hRight := (connectBlock_trusted hRun).2
      (Or.inl hCalm)
    intro hBad
    apply hAnew.ne_error
    rw [show state.utxo = state.coins.lookup
      state.db.records.coins from rfl, hRight,
      show outcome = _ from hBad]
    rfl

/- What the node holds was offered to it. -/
theorem heldHeaders_run
    (env : ChainEnv)
    (calls : List Call) :
    heldHeaders (run env calls) ⊆
      {header | header ∈ offeredHeaders env calls} := by
  have hSourced := Sourced.run env calls
  rintro header (⟨link, hLink, rfl⟩ | ⟨hash, block, hBlock,
    rfl⟩)
  · exact hSourced.links link hLink
  · exact header_mem_offered env
      (hSourced.bodies hash block hBlock).1

theorem heldTransactions_run
    (env : ChainEnv)
    (calls : List Call) :
    heldTransactions env (run env calls) ⊆
      {tx |
        tx ∈ chainTransactions env (offeredBlocks calls)} := by
  have hSourced := Sourced.run env calls
  rintro tx (hGenesis | ⟨hash, block, hBlock, hTx⟩)
  · exact List.mem_flatMap.mpr
      ⟨_, List.mem_append_right _ (List.mem_singleton_self _),
        hGenesis⟩
  · exact List.mem_flatMap.mpr
      ⟨block, List.mem_append_left _
        (hSourced.bodies hash block hBlock).1, hTx⟩

namespace Sample

/- The first block of a branch is applied. -/
def firstApplied : List Call :=
  [.acceptBlock c1 genesisTimestamp, .activateBestChain]

/- The second block on top of the first. -/
theorem txids_distinct_firstApplied :
    (∃ bodies,
      BodiesAlong env (run env firstApplied).db.records.blocks
          (run env firstApplied).chain bodies ∧
        ((chainTransactions env bodies).map
          (Transaction.txid env.crypto)).Nodup) ∧
      (connectBlock env.crypto env.params
          (ChainDb.coinsView env.plan) c2
          (run env firstApplied).coins
          (run env firstApplied).db).1.1 ≠
        .error .txCreatesExistingOutpoint := by
  have hHeaders :
      ∀ first ∈ offeredHeaders env firstApplied,
        ∀ second ∈ offeredHeaders env firstApplied,
          first.hash env.crypto = second.hash env.crypto →
            first = second := by
    rw [env_eq]
    decide +kernel
  have hTxids :
      ∀ first ∈ chainTransactions env [c2, c1],
        ∀ second ∈ chainTransactions env [c2, c1],
          env.crypto.doubleSha256
                first.serializeWithoutWitnesses =
              env.crypto.doubleSha256
                second.serializeWithoutWitnesses →
            first.serializeWithoutWitnesses =
              second.serializeWithoutWitnesses := by
    rw [env_eq]
    decide +kernel
  have hAll :
      heldTransactions env (run env firstApplied) ∪
          {tx | tx ∈ c2.transactions} ⊆
        {tx | tx ∈ chainTransactions env [c2, c1]} := by
    rintro tx (hHeld | hHere)
    · exact List.mem_append_right _
        (heldTransactions_run env firstApplied hHeld)
    · exact List.mem_append_left _ hHere
  have hInjective :
      Set.InjOn env.crypto.doubleSha256
        (Transaction.serializeWithoutWitnesses ''
          (heldTransactions env (run env firstApplied) ∪
            {tx | tx ∈ c2.transactions})) := by
    rintro _ ⟨first, hFirst, rfl⟩ _ ⟨second, hSecond, rfl⟩
    exact hTxids first (hAll hFirst) second (hAll hSecond)
  have hCalm : Calm env.plan := fun _ _ _ => rfl
  have hBoth :=
    txids_distinct env .regtest rfl hCalm
      (run env firstApplied)
      (leads_runFrom hCalm (.fresh env) firstApplied)
      (fun first hFirst second hSecond =>
        hHeaders first
          (heldHeaders_run env firstApplied hFirst) second
          (heldHeaders_run env firstApplied hSecond))
      (hInjective.mono
        (Set.image_mono Set.subset_union_left))
  have hFound :
      ((run env firstApplied).index.find
          (run env firstApplied).tip).any
        (fun tip =>
          decide (c2.header.height.toNat =
            tip.height.toNat + 1)) = true := by
    rw [env_eq]
    decide +kernel
  rcases (Option.any_eq_true _ _).mp hFound with
    ⟨tip, hTip, hHeight⟩
  exact ⟨hBoth.1, hBoth.2 tip c2 hTip
    (of_decide_eq_true hHeight) (by decide +kernel)
    hInjective⟩

end Sample

end Amarian
