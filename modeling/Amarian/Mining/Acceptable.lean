import Amarian.Chain.Supply
import Amarian.Chain.Txids
import Amarian.Consensus.Magnitude
import Amarian.Mempool.Arrivals
import Amarian.Mempool.Confirmation
import Amarian.Mining.Assembler

/-
  Templates as blocks that the rules accept.

  Key definitions include:
    * `LeavesRoom`

  Key theorems include:
    * `template_accepted_iff`
-/

------------------------------------------------------------
-- Weights
------------------------------------------------------------

namespace Amarian

/-
  What is selected leaves room for the header and the count
  of the transactions next to the coinbase.
-/
def LeavesRoom
    (tip : Link)
    (payout : Lock)
    (coinbaseData : ByteVec)
    (params : ChainParams)
    (pool : Option Mempool) : Prop :=
  let selected :=
    selectedEntries tip payout coinbaseData params pool
  (BlockHeader.serializedSize +
        compactSizeLen (selected.length + 1)) *
      witnessScaleFactor +
      (selected.map fun entry => entry.tx.weight).sum ≤
    params.maxBlockWeight -
      (scheduledCoinbase tip payout coinbaseData
        params).weight

/- The amount is written with a fixed width. -/
theorem weight_coinbaseFor
    (height : UInt32)
    (payout : Lock)
    (amount other : Int64)
    (coinbaseData : ByteVec) :
    (coinbaseFor height payout amount coinbaseData).weight =
      (coinbaseFor height payout other
        coinbaseData).weight := by
  have hBase :
      (coinbaseFor height payout amount
          coinbaseData).serializeWithoutWitnesses.length =
        (coinbaseFor height payout other
          coinbaseData).serializeWithoutWitnesses.length := by
    simp [coinbaseFor, Transaction.serializeWithoutWitnesses,
      writeList, TxOutput.serialize, writeI64, writeU64,
      length_littleEndian]
  unfold Transaction.weight Transaction.serialize
  rw [List.length_append, List.length_append, hBase]
  rfl

section Template

variable {tip : Link} {line : List Link} {payout : Lock}
variable {now : Int64} {coinbaseData : ByteVec}
variable {params : ChainParams} {pool : Option Mempool}
variable {root : Hash256}

theorem weight_templateBlock :
    (templateBlock tip line payout now coinbaseData params
        pool root).weight ≤ params.maxBlockWeight ↔
      LeavesRoom tip payout coinbaseData params pool := by
  unfold Block.weight LeavesRoom
  change
    (BlockHeader.serializedSize +
          compactSizeLen (templateTransactions tip payout
            coinbaseData params pool).length) *
          witnessScaleFactor +
        ((templateTransactions tip payout coinbaseData params
          pool).map Transaction.weight).sum ≤ _ ↔ _
  unfold templateTransactions
  rw [List.length_cons, List.length_map, List.map_cons,
    List.sum_cons, List.map_map,
    weight_coinbaseFor (tip.height + 1) payout _
      (blockReward (tip.height + 1) params.issuance)
      coinbaseData]
  change _ + ((scheduledCoinbase tip payout coinbaseData
    params).weight + _) ≤ _ ↔ _
  have hHeader :
      0 < (BlockHeader.serializedSize +
          compactSizeLen
            ((selectedEntries tip payout coinbaseData params
              pool).length + 1)) * witnessScaleFactor :=
    Nat.mul_pos (Nat.add_pos_left (by decide) _) (by decide)
  simp only [Function.comp_def]
  omega

------------------------------------------------------------
-- Targets
------------------------------------------------------------

theorem powLimit_decodes
    (network : Network) :
    ∃ floor,
      compactToTarget (paramsFor network).powLimitBits =
        some floor := by
  apply Option.isSome_iff_exists.mp
  cases network
  · rfl
  · rfl
  · rfl

theorem nextTargetBits_within
    {floor : Target}
    (hFloor :
      compactToTarget params.powLimitBits = some floor) :
    Within floor (nextTargetBits tip params) := by
  unfold nextTargetBits
  apply Within.ite
  · intro _ target hTarget
    rw [hFloor] at hTarget
    cases hTarget
    exact Nat.le_refl _
  · intro _
    exact asertNextBits_within hFloor _ _ _ _ _ _

/- The second bits decode as well, and not above the floor. -/
theorem templateBits_decode
    {network : Network}
    (hParams : params = paramsFor network)
    {first : Target}
    (hFirst :
      compactToTarget (nextTargetBits tip params) =
        some first) :
    ∃ target floor,
      compactToTarget (templateBits tip line now params) =
          some target ∧
        compactToTarget params.powLimitBits = some floor ∧
        bytesLess floor.bytes target.bytes = false := by
  rcases powLimit_decodes network with ⟨floor, hFloor⟩
  rw [← hParams] at hFloor
  have hLimit :
      ∃ target floor,
        compactToTarget params.powLimitBits = some target ∧
          compactToTarget params.powLimitBits =
            some floor ∧
          bytesLess floor.bytes target.bytes = false :=
    ⟨floor, floor, hFloor, hFloor, bytesLess_irrefl _⟩
  unfold templateBits nextTargetBitsAt
  split
  · exact hLimit
  · split
    · exact hLimit
    · refine ⟨first, floor, hFirst, hFloor, ?_⟩
      rw [Bool.eq_false_iff, ne_eq, bytesLess_iff
        (by rw [floor.size_eq, first.size_eq])]
      exact Nat.not_lt.mpr
        (nextTargetBits_within hFloor first hFirst)

------------------------------------------------------------
-- Counts
------------------------------------------------------------

/- No transaction with an input is lighter than this. -/
theorem weight_ge
    {tx : Transaction}
    (hInputs : tx.inputs ≠ []) :
    44 ≤ tx.weight := by
  have hLeast :
      ∀ input : TxInput, 1 ≤ input.serialize.length := by
    intro input
    simp only [TxInput.serialize, writeU32,
      List.length_append, length_littleEndian]
    omega
  have hCount := length_flatMap_ge hLeast tx.inputs
  have hSome := List.length_pos_of_ne_nil hInputs
  have hIn := length_writeCompactSize_pos tx.inputs.length
  have hOut := length_writeCompactSize_pos tx.outputs.length
  have hBase : 11 ≤ tx.serializeWithoutWitnesses.length := by
    simp only [Transaction.serializeWithoutWitnesses,
      writeList, writeU32, List.length_append,
      length_littleEndian]
    omega
  unfold Transaction.weight
  simp only [witnessScaleFactor]
  omega

/- A block within the limit cannot have too many of them. -/
theorem transactions_few
    {network : Network}
    (hParams : params = paramsFor network)
    {block : Block}
    (hInputs : ∀ tx ∈ block.transactions, tx.inputs ≠ [])
    (hWeight : block.weight ≤ params.maxBlockWeight) :
    block.transactions.length ≤
      params.blockLimits.maxTransactions := by
  have hLeast :
      ∀ weight ∈ block.transactions.map Transaction.weight,
        44 ≤ weight := by
    intro weight hMember
    rcases List.mem_map.mp hMember with ⟨tx, hTx, rfl⟩
    exact weight_ge (hInputs tx hTx)
  have hSum := List.card_nsmul_le_sum _ 44 hLeast
  rw [List.length_map, Nat.nsmul_eq_mul] at hSum
  have hMax : params.maxBlockWeight = 2000000 := by
    rw [hParams]
    cases network <;> rfl
  have hLimit :
      params.blockLimits.maxTransactions = 45454 := by
    rw [hParams]
    cases network <;> rfl
  unfold Block.weight at hWeight
  omega

------------------------------------------------------------
-- The Check Of The Block
------------------------------------------------------------

/- The solver moves nothing but the nonce. -/
def BlockTemplate.solved
    (assembled : BlockTemplate)
    (nonce : UInt64) : Block :=
  { assembled.block with
    header := { assembled.block.header with nonce := nonce } }

/- A nonce changes nothing but the hash. -/
theorem solved_parts
    {assembled : BlockTemplate}
    (hBlock :
      assembled.block =
        templateBlock tip line payout now coinbaseData params
          pool root)
    (nonce : UInt64) :
    (assembled.solved nonce).transactions =
        templateTransactions tip payout coinbaseData params
          pool ∧
      (assembled.solved nonce).header.height =
        tip.height + 1 := by
  unfold BlockTemplate.solved
  dsimp only
  rw [hBlock]
  exact ⟨rfl, rfl⟩

theorem checkOutputAmounts_single
    {output : TxOutput}
    (hAmount : isValidAmount output.amount = true) :
    checkOutputAmounts 0 [output] = .ok () := by
  have hZero : isValidAmount 0 = true := rfl
  rcases Exact.checkedAdd_of_valid hZero hAmount with
    ⟨next, hSum, hNext⟩
  have hValid : isValidAmount next = true := by
    rw [isValidAmount_iff] at hAmount ⊢
    change next.toInt = 0 + output.amount.toInt at hNext
    omega
  rw [checkOutputAmounts_step output hAmount hSum hValid]
  rfl

/- The reward of a template that was built is an amount. -/
theorem reward_valid
    {block : Block}
    {coinbase : Transaction}
    {rest : List Transaction}
    {output : TxOutput}
    {fees : Int64}
    (hBlock : block.transactions = coinbase :: rest)
    (hOutputs : coinbase.outputs = [output])
    (hPaid : checkCoinbaseAmount block fees params = .ok ()) :
    isValidAmount fees = true ∧
      isValidAmount output.amount = true := by
  unfold checkCoinbaseAmount at hPaid
  rw [hBlock] at hPaid
  dsimp only at hPaid
  rw [except_check_eq_ok, except_check_eq_ok, rejectIf_eq_ok,
    rejectIf_eq_ok, hOutputs] at hPaid
  rcases hPaid with ⟨-, hFees, hPaid⟩
  refine ⟨by simpa using hFees, ?_⟩
  split at hPaid
  · cases hPaid
  · rename_i claimed hClaimed
    rcases sumAmounts_cons hClaimed with ⟨next, hAmount, -⟩
    exact hAmount

theorem checkTransaction_coinbaseFor
    {network : Network}
    (hParams : params = paramsFor network)
    {height : UInt32}
    {amount : Int64}
    (hData :
      coinbaseData.length ≤
        params.blockLimits.tx.maxCoinbaseDataSize)
    (hAmount : isValidAmount amount = true)
    (hWeight :
      (coinbaseFor height payout amount coinbaseData).weight ≤
        params.maxBlockWeight) :
    checkTransaction
        (coinbaseFor height payout amount coinbaseData)
        params = .ok () := by
  have hCoinbase :
      (coinbaseFor height payout amount
        coinbaseData).isCoinbase = true := rfl
  have hLimits :
      1 ≤ params.blockLimits.tx.maxInputs ∧
        1 ≤ params.blockLimits.tx.maxOutputs := by
    rw [hParams, paramsFor_blockLimits]
    decide
  apply checkTransaction_eq_ok.mpr
  refine ⟨List.cons_ne_nil _ _, List.cons_ne_nil _ _,
    hLimits.1, hLimits.2, ?_,
    checkOutputAmounts_single hAmount, ?_, hWeight⟩
  · apply checkTransactionForm_eq_ok.mpr
    constructor
    · exact fun _ => ⟨rfl, hData⟩
    · intro hPlain
      rw [hCoinbase] at hPlain
      cases hPlain
  · intro hPlain
    rw [hCoinbase] at hPlain
    cases hPlain

end Template

section Selected

open Mempool

variable {c : Crypto} {params : ChainParams}
variable {pool : Mempool} {base : Utxo} {height : UInt32}
variable {ids : List Hash256} {entries : List Entry}

/- Selected entries are no coinbases and pass their check. -/
theorem selected_pass
    (hValid : pool.ValidAt c params base height)
    (hFound : ids.map pool.find = entries.map some) :
    ∀ tx ∈ entries.map Entry.tx,
      tx.isCoinbase = false ∧
        checkTransaction tx params = .ok () := by
  intro tx hTx
  rcases List.mem_map.mp hTx with ⟨entry, hEntry, rfl⟩
  rcases selected_lookup hFound hEntry with
    ⟨id, -, links, hLinks, rfl⟩
  rcases hValid id links hLinks with
    ⟨hForm, spent, -, hInputs⟩
  exact ⟨(checkTransactionInputs_stored hInputs).1, hForm⟩

/- No two of them spend the same outpoint. -/
theorem selected_spends_nodup
    (hExact : pool.Exact c)
    (hValid : pool.ValidAt c params base height)
    (hFound : ids.map pool.find = entries.map some)
    (hDistinct : ids.Nodup) :
    ((entries.map Entry.tx).flatMap fun tx =>
      tx.inputs.map TxInput.outpoint).Nodup := by
  induction ids generalizing entries with
  | nil =>
      cases entries with
      | nil => exact List.nodup_nil
      | cons entry entries => cases hFound
  | cons id ids ih =>
      cases entries with
      | nil => cases hFound
      | cons entry entries =>
          rw [List.nodup_cons] at hDistinct
          have hPasses := (selected_pass hValid hFound
            entry.tx (by simp))
          rw [List.map_cons, List.map_cons,
            List.cons.injEq] at hFound
          rcases Option.map_eq_some_iff.mp hFound.1 with
            ⟨links, hLinks, rfl⟩
          rw [List.map_cons, List.flatMap_cons]
          apply List.Nodup.append
          · rcases checkTransaction_eq_ok.mp hPasses.2 with
              ⟨-, -, -, -, -, -, hNodup, -⟩
            exact (hNodup hPasses.1).1
          · exact ih hFound.2 hDistinct.2
          · intro outpoint hHere hThere
            rcases List.mem_flatMap.mp hThere with
              ⟨tx, hTx, hOther⟩
            rcases List.mem_map.mp hTx with
              ⟨entry, hEntry, rfl⟩
            rcases selected_lookup hFound.2 hEntry with
              ⟨other, hMember, found, hLookup, rfl⟩
            have hFirst := (hExact.spends outpoint id).mpr
              ⟨links, hLinks, hHere⟩
            have hSecond := (hExact.spends outpoint other).mpr
              ⟨found, hLookup, hOther⟩
            rw [hFirst] at hSecond
            cases hSecond
            exact hDistinct.1 hMember

theorem placement_template
    {tip : Link}
    {payout : Lock}
    {coinbaseData : ByteVec}
    {block : Block}
    (hValid : pool.ValidAt c params base height)
    (hTransactions :
      block.transactions =
        templateTransactions tip payout coinbaseData params
          (some pool))
    (hHeight : block.header.height = tip.height + 1) :
    checkCoinbasePlacement block = .ok () := by
  have hPicked := (picked_selection pool
    (params.maxBlockWeight -
      (scheduledCoinbase tip payout coinbaseData
        params).weight)).1
  have hSelected := selected_pass hValid hPicked.found
  have hRest :
      ((selectedEntries tip payout coinbaseData params
        (some pool)).map Entry.tx).any
          Transaction.isCoinbase = false := by
    rw [List.any_eq_false]
    intro tx hTx
    rw [(hSelected tx hTx).1]
    exact Bool.false_ne_true
  unfold checkCoinbasePlacement
  rw [hTransactions]
  unfold templateTransactions
  dsimp only
  rw [except_check_eq_ok, except_check_eq_ok, rejectIf_eq_ok,
    rejectIf_eq_ok, rejectIf_eq_ok]
  refine ⟨rfl, hRest, ?_⟩
  rw [hHeight]
  simp [coinbaseFor, makeCoinbaseInput]

/- Judging a template, solved, leaves its weight to check. -/
theorem checkBlock_template_iff
    {network : Network}
    (hParams : params = paramsFor network)
    {tip : Link}
    {line : List Link}
    {payout : Lock}
    {now : Int64}
    {coinbaseData : ByteVec}
    {assembled : BlockTemplate}
    (hBuilt :
      buildBlockTemplate c tip line payout now coinbaseData
        params (some pool) = .ok assembled)
    (hExact : pool.Exact c)
    (hValid : pool.ValidAt c params base height)
    {nonce : UInt64}
    (hSolved :
      hashMeetsTarget ((assembled.solved nonce).header.hash c)
        assembled.target = true) :
    checkBlock c (assembled.solved nonce) params = .ok () ↔
      LeavesRoom tip payout coinbaseData params
        (some pool) := by
  rcases buildBlockTemplate_eq_ok c tip line payout now
    coinbaseData params (some pool) hBuilt with
    ⟨hData, -, ⟨first, hFirst⟩, root, hRoot, hBlock, hTarget,
      hJudged⟩
  rcases (judgeTemplate_eq_ok tip line payout now coinbaseData
    params (some pool)).mp hJudged with ⟨-, hPaid⟩
  have hDecodes :
      ∃ target floor,
        compactToTarget (templateBits tip line now params) =
            some target ∧
          compactToTarget params.powLimitBits = some floor ∧
          bytesLess floor.bytes target.bytes = false :=
    templateBits_decode hParams hFirst
  rcases hDecodes with
    ⟨target, floor, hBits, hFloor, hWithin⟩
  have hWeighs :
      (templateBlock tip line payout now coinbaseData params
          (some pool) root).weight ≤ params.maxBlockWeight ↔
        LeavesRoom tip payout coinbaseData params
          (some pool) :=
    weight_templateBlock
  rw [← hWeighs, ← hBlock]
  rw [checkBlock_eq_ok]
  constructor
  · rintro ⟨-, -, -, -, hWeight, -⟩
    exact hWeight
  intro hWeight
  have hPicked := (picked_selection pool
    (params.maxBlockWeight -
      (scheduledCoinbase tip payout coinbaseData
        params).weight)).1
  rcases solved_parts hBlock nonce with
    ⟨hTransactions, hHeight⟩
  have hSelected := selected_pass hValid hPicked.found
  have hSum := @reward_valid _ assembled.block _ _ _ _
    (hTransactions.trans rfl) rfl hPaid
  have hHeavy :
      ∀ tx ∈ (assembled.solved nonce).transactions,
        tx.weight ≤ params.maxBlockWeight := by
    intro tx hTx
    refine Nat.le_trans ?_ hWeight
    unfold Block.weight
    refine Nat.le_trans ?_ (Nat.le_add_left ..)
    exact List.single_le_sum (fun _ _ => Nat.zero_le _) _
      (List.mem_map_of_mem hTx)
  have hForms :
      ∀ tx ∈ (assembled.solved nonce).transactions,
        checkTransaction tx params = .ok () := by
    rw [hTransactions, templateTransactions,
      List.forall_mem_cons] at hHeavy ⊢
    constructor
    · exact checkTransaction_coinbaseFor hParams hData hSum.2
        hHeavy.1
    · exact fun tx hTx => (hSelected tx hTx).2
  refine ⟨?_, ?_, ?_, ?_, hWeight, ?_, hForms, ?_⟩
  · have hHeader :
        (assembled.solved nonce).header.targetBits =
          templateBits tip line now params := by
      change assembled.block.header.targetBits = _
      rw [hBlock]
      rfl
    rw [hBits, Option.getD_some] at hTarget
    rw [hTarget] at hSolved
    unfold checkBlockHeader
    rw [hHeader, hBits, hFloor]
    dsimp only
    rw [hWithin, hSolved]
    rfl
  · rw [hTransactions]
    exact List.cons_ne_nil _ _
  · apply transactions_few hParams _ hWeight
    intro tx hTx
    exact (checkTransaction_eq_ok.mp (hForms tx hTx)).1
  · exact placement_template hValid hTransactions hHeight
  · unfold Block.computeMerkleRoot
    rw [hTransactions, hRoot]
    change _ = some assembled.block.header.merkleRoot
    rw [hBlock]
    rfl
  · unfold Block.spentOutpoints
    rw [hTransactions]
    unfold templateTransactions
    have hCoinbase :
        (coinbaseFor (tip.height + 1) payout
          (templateReward tip payout coinbaseData params
            (some pool)) coinbaseData).isCoinbase = true :=
      rfl
    rw [List.filter_cons_of_neg (by simp [hCoinbase]),
      List.filter_eq_self.mpr]
    · exact selected_spends_nodup hExact hValid
        hPicked.found hPicked.distinct
    · intro tx hTx
      rw [(hSelected tx hTx).1]
      rfl

end Selected

------------------------------------------------------------
-- The Coins At The Tip
------------------------------------------------------------

theorem totalIssuance_le
    (network : Network) :
    (totalIssuance (paramsFor network).issuance).toInt ≤
      maxMoney.toInt := by
  cases network
  · decide +kernel
  · decide +kernel
  · decide +kernel

/- What holds of every output that passed holds of the coins. -/
theorem replay_every
    {c : Crypto}
    {params : ChainParams}
    {holds : OutPoint → Coin → Prop}
    {blocks : Hash256 → Option Block}
    (hPasses :
      ∀ hash block, blocks hash = some block →
        checkBlock c block params = .ok ())
    (hHolds :
      ∀ tx, checkTransaction tx params = .ok () →
        Utxo.OutputsHold c holds tx)
    {chain : List Hash256}
    {coins : Utxo}
    (hReplay : replay c params blocks chain = some coins) :
    Utxo.Every holds coins := by
  induction chain generalizing coins with
  | nil => cases hReplay
  | cons hash below ih =>
      cases below with
      | nil =>
          cases hReplay
          exact .empty
      | cons parent below =>
          rcases replay_cons.mp hReplay with
            ⟨before, block, result, hBefore, hBlock,
              hConnect⟩
          refine (ih hBefore).connectBlock ?_ hConnect
          intro tx hTx
          rcases checkBlock_eq_ok.mp (hPasses hash block
            hBlock) with ⟨-, -, -, -, -, -, hForms, -⟩
          exact hHolds tx (hForms tx hTx)

/- No transaction that passed has an output below zero. -/
theorem outputsHold_priced
    {c : Crypto}
    {params : ChainParams}
    {tx : Transaction}
    (hTx : checkTransaction tx params = .ok ()) :
    Utxo.OutputsHold c
      (fun _ coin => 0 ≤ coin.output.amount.toInt) tx := by
  intro place coin hOutput
  rcases checkTransaction_eq_ok.mp hTx with
    ⟨-, -, -, -, -, hAmounts, -⟩
  exact ((isValidAmount_iff _).mp
    (checkOutputAmounts_valid hAmounts coin.output
      (List.mem_of_getElem? hOutput))).1

/- Checked blocks never leave a negative amount behind. -/
theorem replay_priced
    {c : Crypto}
    {params : ChainParams}
    {blocks : Hash256 → Option Block}
    (hPasses :
      ∀ hash block, blocks hash = some block →
        checkBlock c block params = .ok ())
    {chain : List Hash256}
    {coins : Utxo}
    (hReplay : replay c params blocks chain = some coins) :
    coins.Priced :=
  replay_every hPasses (fun _ hTx => outputsHold_priced hTx)
    hReplay

/- The coins of the chain, its branch and what they are worth. -/
theorem SoundState.tip_worth
    {env : ChainEnv}
    {state : ChainState}
    {network : Network}
    (hSound : SoundState env state)
    (hParams : env.params = paramsFor network)
    (hCalm : Calm env.plan)
    (hDistinct :
      Set.InjOn (BlockHeader.hash env.crypto)
        (heldHeaders state)) :
    state.utxo.Priced ∧
      ∃ total,
        state.utxo.Worth total ∧ total ≤ maxMoney.toInt := by
  rcases hSound.ok.ledger.tip_branch hSound.ok.index.tree
    state.index.genesis with
    ⟨link, hLink, hHash, hChain⟩
  have hReplay := hSound.synced hCalm
  rw [hChain] at hReplay
  have hSchedule : env.params.issuance.Sound := by
    rw [hParams]
    exact sound_paramsFor network
  constructor
  · apply replay_priced _ hReplay
    intro hash block hBlock
    exact (hSound.ok.ledger.bodies hash block hBlock).2
  · rcases hSound.sourced.worth_of_replay
      (rewardFits_of_sound hSchedule) hDistinct
      (fun body hBody => .inr (hBody.imp fun hash hStored =>
        ⟨body, hStored, rfl⟩)) hLink hReplay with
      ⟨total, hWorth, hLe⟩
    refine ⟨total, hWorth, ?_⟩
    have hIssued := sum_blockReward_le hSchedule link.height
    have hMoney := totalIssuance_le network
    rw [← hParams] at hMoney
    unfold rewardsUpTo at hLe
    omega

/-
  What the chain at the tip says about its coins: they come
  from a traced history, their amounts are not negative, and
  they are worth no more than all the money.
-/
theorem SoundState.tip_coins
    {env : ChainEnv}
    {state : ChainState}
    {network : Network}
    (hSound : SoundState env state)
    (hParams : env.params = paramsFor network)
    (hCalm : Calm env.plan)
    (hDistinct :
      Set.InjOn (BlockHeader.hash env.crypto)
        (heldHeaders state))
    {all : Set Transaction}
    (hIds : Utxo.IdsTellInputs env.crypto all)
    (hHeld : heldTransactions env state ⊆ all)
    {tip : BlockIndexEntry}
    (hTip : state.index.find state.tip = some tip) :
    (∃ seen,
      (∀ tx ∈ seen, tx ∈ all) ∧
        Utxo.Traced env.crypto tip.height.toNat seen
          state.utxo) ∧
      state.utxo.Priced ∧
      ∃ total,
        state.utxo.Worth total ∧ total ≤ maxMoney.toInt := by
  rcases hSound.ok.ledger.tip_branch hSound.ok.index.tree
    state.index.genesis with
    ⟨link, hLink, hHash, hChain⟩
  have hReplay := hSound.synced hCalm
  rw [hChain] at hReplay
  have hSame : tip.toLink = link := by
    rcases IndexOk.mem_of_find hTip with ⟨hMember, hEntry⟩
    exact hSound.ok.index.tree.grown.key_injective
      (IndexOk.link_mem hMember) hLink
      (hEntry.trans hHash.symm)
  refine ⟨?_, hSound.tip_worth hParams hCalm hDistinct⟩
  rcases hSound.traced_of_replay hParams hDistinct hIds
    hHeld hLink hReplay with ⟨bodies, hBodies, hTraced⟩
  rw [← hSame] at hTraced
  exact ⟨_, fun tx hTx => hHeld (hBodies.transactions_held
    tx hTx), hTraced⟩

------------------------------------------------------------
-- Connecting The Block
------------------------------------------------------------

theorem totalFeesOf_toInt
    {entries : List Entry}
    (hFees :
      ∀ fee ∈ entries.map fun entry => entry.fee.toInt,
        0 ≤ fee)
    (hSum :
      (entries.map fun entry => entry.fee.toInt).sum ≤
        maxMoney.toInt) :
    (totalFeesOf entries).toInt =
      (entries.map fun entry => entry.fee.toInt).sum := by
  have hAll :
      ∀ total : Int64,
        0 ≤ total.toInt →
          total.toInt +
              (entries.map fun entry =>
                entry.fee.toInt).sum ≤ maxMoney.toInt →
            (entries.foldl
                (fun total entry => total + entry.fee)
                total).toInt =
              total.toInt +
                (entries.map fun entry =>
                  entry.fee.toInt).sum := by
    clear hSum
    induction entries with
    | nil => simp
    | cons entry entries ih =>
        intro total hTotal hSum
        rw [List.map_cons, List.forall_mem_cons] at hFees
        rw [List.map_cons, List.sum_cons] at hSum ⊢
        have hRest := List.sum_nonneg hFees.2
        have hNext := (accumulateFee_of_le hTotal hFees.1
          (by omega)).2
        rw [List.foldl_cons, ih hFees.2 _ (by omega)
          (by omega), hNext]
        omega
  have hZero : (0 : Int64).toInt = 0 := rfl
  have hExact := hAll 0 (by omega) (by omega)
  rw [hZero, Int.zero_add] at hExact
  exact hExact

section Connecting

open Mempool

variable {c : Crypto} {params : ChainParams}
variable {pool : Mempool} {base : Utxo}
variable {tip : Link} {line : List Link} {payout : Lock}
variable {now : Int64} {coinbaseData : ByteVec}
variable {assembled : BlockTemplate}

/- A template connects, if it creates nothing twice. -/
theorem template_failsOnly
    (hBuilt :
      buildBlockTemplate c tip line payout now coinbaseData
        params (some pool) = .ok assembled)
    (hExact : pool.Exact c)
    (hValid : pool.ValidAt c params base (tip.height + 1))
    (hFees :
      ((pool.getTemplates
          (params.maxBlockWeight -
            (scheduledCoinbase tip payout coinbaseData
              params).weight)).map
        fun entry => entry.fee.toInt).sum ≤ maxMoney.toInt)
    (nonce : UInt64) :
    ExceptFailsOnly .txCreatesExistingOutpoint
      (fun _ => True)
      (Utxo.connectBlock c params (assembled.solved nonce)
        base) := by
  rcases buildBlockTemplate_eq_ok c tip line payout now
    coinbaseData params (some pool) hBuilt with
    ⟨-, -, -, root, -, hBlock, -, hJudged⟩
  rcases (judgeTemplate_eq_ok tip line payout now coinbaseData
    params (some pool)).mp hJudged with ⟨-, hPaid⟩
  have hPicked := (picked_selection pool
    (params.maxBlockWeight -
      (scheduledCoinbase tip payout coinbaseData
        params).weight)).1
  rcases solved_parts hBlock nonce with
    ⟨hTransactions, hHeight⟩
  have hAmount :
      ∀ fees,
        checkCoinbaseAmount (assembled.solved nonce) fees
            params =
          checkCoinbaseAmount assembled.block fees params :=
    fun _ => rfl
  have hTotal := totalFeesOf_toInt
    (fees_nonneg hValid hPicked.found) hFees
  unfold Utxo.connectBlock
  rw [hTransactions, hHeight]
  unfold templateTransactions
  refine @ExceptFailsOnly.bind _ _ _ _ (fun _ => True) _ _ _
    trivial fun _ _ _ => ?_
  refine @ExceptFailsOnly.bind _ _ _ _ (fun _ => True) _ _ _
    (@ExceptFailsOnly.bind _ _ _ _ (fun _ => True) _ _ _
      trivial fun _ _ _ => Utxo.addOutputs_failsOnly ..) ?_
  intro created hCreated _
  rcases except_bind_eq_ok.mp hCreated with ⟨-, -, hAdded⟩
  have hJoined : pool.Joined base (tip.height + 1) []
      created :=
    .start fun outpoint coin hCoin =>
      (Utxo.addOutputs_frame hCoin hAdded).1
  have hConnects := hJoined.connects hExact hValid
    hPicked.found hPicked.distinct hPicked.ordered
    (show 0 ≤ (0 : Int64).toInt ∧
      (0 : Int64).toInt ≤ maxMoney.toInt by decide)
    (.inl (by rw [show (0 : Int64).toInt = 0 from rfl,
      Int.zero_add]; exact hFees))
  refine hConnects.bind ?_
  rintro ⟨undo, fees, after⟩ - ⟨hSame, -⟩
  have hEqual :
      fees = templateFees tip payout coinbaseData params
        (some pool) := by
    apply Int64.toInt_inj.mp
    rw [hSame, show (0 : Int64).toInt = 0 from rfl,
      Int.zero_add]
    exact hTotal.symm
  dsimp only
  rw [hAmount, hEqual, hPaid]
  trivial

theorem template_connects
    (hBuilt :
      buildBlockTemplate c tip line payout now coinbaseData
        params (some pool) = .ok assembled)
    (hExact : pool.Exact c)
    (hValid : pool.ValidAt c params base (tip.height + 1))
    {network : Network}
    (hParams : params = paramsFor network)
    {seen : List Transaction}
    {all : Set Transaction}
    (hTraced : Utxo.Traced c tip.height.toNat seen base)
    (hIds : Utxo.IdsTellInputs c all)
    (hSeen : ∀ tx ∈ seen, tx ∈ all)
    (hTxs : ∀ tx ∈ assembled.block.transactions, tx ∈ all)
    (hPriced : base.Priced)
    {total : Int}
    (hWorth : base.Worth total)
    (hTotal : total ≤ maxMoney.toInt)
    (nonce : UInt64) :
    ∃ done,
      Utxo.connectBlock c params (assembled.solved nonce)
        base = .ok done := by
  rcases buildBlockTemplate_eq_ok c tip line payout now
    coinbaseData params (some pool) hBuilt with
    ⟨-, hTop, -, root, -, hBlock, -, -⟩
  have hPicked := (picked_selection pool
    (params.maxBlockWeight -
      (scheduledCoinbase tip payout coinbaseData
        params).weight)).1
  have hSelected := selected_pass hValid hPicked.found
  rcases solved_parts hBlock nonce with
    ⟨hTransactions, hHeight⟩
  have hAll :
      ∀ tx ∈ (assembled.solved nonce).transactions,
        tx ∈ all :=
    hTxs
  rw [hTransactions, templateTransactions,
    List.forall_mem_cons] at hAll
  have hLimit : params.blockLimits.tx.maxOutputs ≤ 2 ^ 32 := by
    rw [hParams, paramsFor_blockLimits]
    decide
  have hCounts :
      ∀ tx ∈ (selectedEntries tip payout coinbaseData params
          (some pool)).map Entry.tx,
        tx.inputs ≠ [] ∧ tx.outputs.length ≤ 2 ^ 32 := by
    intro tx hTx
    rcases checkTransaction_eq_ok.mp (hSelected tx hTx).2 with
      ⟨hInputs, -, -, hOutputs, -⟩
    exact ⟨hInputs, Nat.le_trans hOutputs hLimit⟩
  have hFees :
      ((pool.getTemplates
          (params.maxBlockWeight -
            (scheduledCoinbase tip payout coinbaseData
              params).weight)).map
        fun entry => entry.fee.toInt).sum ≤
          maxMoney.toInt := by
    have hJoined : pool.Joined base (tip.height + 1) []
        base :=
      .start fun _ _ hCoin => hCoin
    have hConnects := hJoined.connects hExact hValid
      hPicked.found hPicked.distinct hPicked.ordered
      (show 0 ≤ (0 : Int64).toInt ∧
        (0 : Int64).toInt ≤ maxMoney.toInt by decide)
      (.inr ⟨total, hWorth, hPriced, by
        rw [show (0 : Int64).toInt = 0 from rfl]
        omega⟩)
    have hAnew := @Utxo.Traced.connectSpends _ params _ _ _ _
      hTraced hIds hSeen _ hAll.2 (fun tx hTx => (hCounts tx hTx).1)
      (fun tx hTx => (hCounts tx hTx).2) (tip.height + 1) 0
    rcases hConnects.exists_ok hAnew with
      ⟨done, -, ⟨hSum, hLe⟩, -⟩
    rw [hSum, show (0 : Int64).toInt = 0 from rfl,
      Int.zero_add] at hLe
    exact hLe
  have hFails := template_failsOnly hBuilt hExact hValid hFees
    nonce
  have hNext : (tip.height + 1).toNat =
      tip.height.toNat + 1 := by
    have hLess := tip.height.toNat_lt
    have hNe : tip.height.toNat ≠ 4294967295 := fun hEq =>
      hTop (UInt32.toNat_inj.mp hEq)
    rw [UInt32.toNat_add]
    change (tip.height.toNat + 1) % 2 ^ 32 = _
    omega
  have hAnew := @Utxo.Traced.connectBlock _ params _ _ _ _
    hTraced hIds hSeen (assembled.solved nonce) hTxs
    (placement_template hValid hTransactions hHeight)
    (by
      rw [hTransactions, templateTransactions,
        List.forall_mem_cons]
      exact ⟨List.cons_ne_nil _ _,
        fun tx hTx => (hCounts tx hTx).1⟩)
    (by
      rw [hTransactions, templateTransactions,
        List.forall_mem_cons]
      exact ⟨Nat.one_le_two_pow, fun tx hTx =>
        (hCounts tx hTx).2⟩)
    (by
      rw [hHeight, hNext]
      exact Nat.lt_succ_self _)
  rcases hFails.exists_ok hAnew with ⟨done, hDone, -⟩
  exact ⟨done, hDone⟩

end Connecting

/-
  For every pool of entries that are valid on top of the tip:
  a template that was built, once it is solved, is a block
  that the node accepts exactly if what was selected leaves
  room for the header and the transaction count.
-/
theorem template_accepted_iff
    (env : ChainEnv)
    (network : Network)
    (hParams : env.params = paramsFor network)
    (hCalm : Calm env.plan)
    (calls : List Call)
    (hDistinct :
      Set.InjOn (BlockHeader.hash env.crypto)
        {header | header ∈ offeredHeaders env calls})
    (tip : BlockIndexEntry)
    (hTip :
      (run env calls).index.find (run env calls).tip =
        some tip)
    (payout : Lock)
    (now : Int64)
    (coinbaseData : ByteVec)
    (pool : Mempool)
    (hExact : pool.Exact env.crypto)
    (hValid :
      pool.ValidAt env.crypto env.params (run env calls).utxo
        (tip.height + 1))
    (assembled : BlockTemplate)
    (hBuilt :
      buildBlockTemplate env.crypto tip.toLink
          ((run env calls).index.lineage tip.hash) payout now
          coinbaseData env.params (some pool) =
        .ok assembled)
    (hTxids :
      Set.InjOn env.crypto.doubleSha256
        (Transaction.serializeWithoutWitnesses ''
          (heldTransactions env (run env calls) ∪
            {tx | tx ∈ assembled.block.transactions})))
    (nonce : UInt64)
    (hSolved :
      hashMeetsTarget
        ((assembled.solved nonce).header.hash env.crypto)
        assembled.target = true) :
    (checkBlock env.crypto (assembled.solved nonce)
          env.params = .ok () ∧
        ∃ result,
          (connectBlock env.crypto env.params
              (ChainDb.coinsView env.plan)
              (assembled.solved nonce) (run env calls).coins
              (run env calls).db).1.1 = .ok result) ↔
      LeavesRoom tip.toLink payout coinbaseData env.params
        (some pool) := by
  have hSound := SoundState.run hCalm calls
  have hCounts := heldTransactions_counts hSound hParams
  have hCheck := checkBlock_template_iff hParams hBuilt hExact
    hValid hSolved
  constructor
  · exact fun hAccepted => hCheck.mp hAccepted.1
  intro hRoom
  have hPasses := hCheck.mpr hRoom
  refine ⟨hPasses, ?_⟩
  have hBlockCounts := checkBlock_counts hParams hPasses
  have hIds := Utxo.idsTellInputs hTxids fun tx hTx =>
    hTx.elim (hCounts tx) fun hHere =>
      (hBlockCounts tx hHere).2.1
  rcases hSound.tip_coins hParams hCalm
    (hDistinct.mono (heldHeaders_run env calls)) hIds
    Set.subset_union_left hTip with
    ⟨⟨seen, hSeen, hTraced⟩, hPriced, total, hWorth, hTotal⟩
  rcases template_connects hBuilt hExact hValid hParams
    hTraced hIds hSeen (fun _ hTx => .inr hTx) hPriced hWorth
    hTotal nonce with ⟨done, hDone⟩
  rcases hRun : connectBlock env.crypto env.params
    (ChainDb.coinsView env.plan) (assembled.solved nonce)
    (run env calls).coins (run env calls).db with
    ⟨⟨outcome, later⟩, after⟩
  have hRight := (connectBlock_trusted hRun).2
    (Or.inl hCalm)
  change Utxo.connectBlock _ _ _ (run env calls).utxo = _
    at hRight
  rw [hDone] at hRight
  cases outcome with
  | error error => cases hRight
  | ok result => exact ⟨result, rfl⟩

end Amarian
