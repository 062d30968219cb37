import Amarian.Chain.Offering
import Amarian.Utxo.Outcome
import Amarian.Wallet.Wallet

/-
  What a wallet finds on a chain.

  Scanning a block moves the wallet's coins as connecting the
  block moves the coins of the chain, so that every coin the
  wallet has is one of those.

  Key definitions include:
    * `Wallet.Found`
    * `Wallet.scannedBlocks`

  Key theorems include:
    * `Wallet.Found.scanBlock`
    * `Wallet.found_of_replay`
-/

------------------------------------------------------------
-- Coins Of The Chain
------------------------------------------------------------

namespace Amarian

namespace Wallet

/- Where the key of an entry comes from. -/
def KeyedBy
    (owned : List OwnedLock)
    (entry : UtxoEntry) : Prop :=
  ∃ key ∈ owned,
    key.lock = entry.coin.output.lock ∧
      key.account = entry.accountId ∧
      key.index = entry.derivationIndex

/- Every entry is a coin of the set, and none is there twice. -/
structure Found
    (owned : List OwnedLock)
    (coins : Utxo)
    (utxos : List UtxoEntry) : Prop where
  held :
    ∀ entry ∈ utxos,
      coins entry.outpoint = some entry.coin
  once : (utxos.map UtxoEntry.outpoint).Nodup
  keyed : ∀ entry ∈ utxos, KeyedBy owned entry

/- No wallet has a key to an output that is not stored. -/
def Openable
    (owned : List OwnedLock) : Prop :=
  ∀ key ∈ owned, key.lock.isUnspendable = false

/- What the scan of an output adds to the wallet. -/
def foundEntry
    (c : Crypto)
    (owned : List OwnedLock)
    (height : UInt32)
    (tx : Transaction)
    (found : TxOutput × Nat) : Option UtxoEntry :=
  (owned.find? (·.lock = found.1.lock)).map fun key =>
    { outpoint :=
        { txid := tx.txid c
          index := UInt32.ofNat found.2 }
      coin :=
        { output := found.1
          height := height
          isCoinbase := tx.isCoinbase }
      confirmed := true
      accountId := key.account
      derivationIndex := key.index }

/- Every lock that a wallet derives can be opened. -/
theorem openable_ownedLocks
    (c : Crypto)
    (signer : Signer)
    (wallet : Wallet) :
    Openable (wallet.ownedLocks c signer) := by
  intro key hKey
  rcases List.mem_flatMap.mp hKey with ⟨account, -, hIndex⟩
  rcases List.mem_map.mp hIndex with ⟨index, -, rfl⟩
  unfold deriveLock
  dsimp only
  split
  · rfl
  split
  · rfl
  · rfl

/- Every lock that a wallet derives has a full program. -/
theorem program_ownedLocks
    {c : Crypto}
    {signer : Signer}
    {wallet : Wallet}
    {key : OwnedLock}
    (hKey : key ∈ wallet.ownedLocks c signer) :
    key.lock.version = lockVersionConditionCommitment ∧
      key.lock.program.length = 32 := by
  rcases List.mem_flatMap.mp hKey with ⟨account, -, hIndex⟩
  rcases List.mem_map.mp hIndex with ⟨index, -, rfl⟩
  unfold deriveLock
  dsimp only
  split
  · exact ⟨rfl, rfl⟩
  split
  · exact ⟨rfl, rfl⟩
  · exact ⟨rfl, (spendConditionCommitment c _).size_eq⟩

namespace Found

variable {owned : List OwnedLock}
variable {coins after : Utxo} {utxos : List UtxoEntry}

theorem empty
    (coins : Utxo) :
    Found owned coins [] :=
  ⟨by simp, List.nodup_nil, by simp⟩

theorem sublist
    (hFound : Found owned coins utxos)
    {fewer : List UtxoEntry}
    (hFewer : fewer.Sublist utxos) :
    Found owned coins fewer where
  held := fun entry hEntry =>
    hFound.held entry (hFewer.subset hEntry)
  once := hFound.once.sublist (hFewer.map _)
  keyed := fun entry hEntry =>
    hFound.keyed entry (hFewer.subset hEntry)

/- Coins elsewhere may come and go. -/
theorem change
    (hFound : Found owned coins utxos)
    (hSame :
      ∀ entry ∈ utxos,
        after entry.outpoint = coins entry.outpoint) :
    Found owned after utxos where
  held := fun entry hEntry =>
    (hSame entry hEntry).trans (hFound.held entry hEntry)
  once := hFound.once
  keyed := hFound.keyed

------------------------------------------------------------
-- Inputs
------------------------------------------------------------

theorem scanInput_utxos
    (scan : TxScan)
    (input : TxInput) :
    (scanInput scan input).utxos =
      scan.utxos.filter (·.outpoint ≠ input.outpoint) :=
  rfl

/- Nothing but a removal happens to the coins. -/
theorem scanInputs_sublist
    (inputs : List TxInput)
    (scan : TxScan) :
    (inputs.foldl scanInput scan).utxos.Sublist
      scan.utxos := by
  induction inputs generalizing scan with
  | nil => exact List.Sublist.refl _
  | cons input inputs ih =>
      rw [List.foldl_cons]
      refine (ih _).trans ?_
      rw [scanInput_utxos]
      exact List.filter_sublist

theorem scanInputs
    {inputs : List TxInput}
    {spent : List Coin}
    {scan : TxScan}
    (hFound : Found owned coins scan.utxos)
    (hSpend :
      Utxo.spendInputs inputs coins = .ok (spent, after)) :
    Found owned after
      (inputs.foldl scanInput scan).utxos := by
  induction inputs generalizing coins scan spent with
  | nil =>
      cases hSpend
      exact hFound
  | cons input inputs ih =>
      unfold Utxo.spendInputs at hSpend
      split at hSpend
      · cases hSpend
      rename_i coin left hOne
      rcases except_bind_eq_ok.mp hSpend with
        ⟨⟨rest, last⟩, hRest, hDone⟩
      cases hDone
      rw [List.foldl_cons]
      refine ih ?_ hRest
      rw [scanInput_utxos]
      rcases Option.map_eq_some_iff.mp hOne with
        ⟨found, -, hLeft⟩
      cases hLeft
      refine (hFound.sublist List.filter_sublist).change ?_
      intro entry hEntry
      have hOther := (List.mem_filter.mp hEntry).2
      exact Function.update_of_ne
        (of_decide_eq_true hOther) _ _

------------------------------------------------------------
-- Outputs
------------------------------------------------------------

theorem scanOutputs_utxos
    {c : Crypto}
    {height : UInt32}
    {tx : Transaction}
    (outputs : List (TxOutput × Nat))
    (scan : TxScan) :
    (outputs.foldl (scanOutput c owned height tx)
        scan).utxos =
      scan.utxos ++
        outputs.filterMap
          (foundEntry c owned height tx) := by
  induction outputs generalizing scan with
  | nil => exact (List.append_nil _).symm
  | cons found outputs ih =>
      rw [List.foldl_cons, ih, List.filterMap_cons,
        foundEntry, scanOutput]
      cases owned.find? (·.lock = found.1.lock) with
      | none => rfl
      | some key => exact List.append_assoc ..

/- Coins that no input names stay where they are. -/
theorem scanInputs_same
    {inputs : List TxInput}
    {scan : TxScan}
    (hFree :
      ∀ input ∈ inputs, ∀ entry ∈ scan.utxos,
        entry.outpoint ≠ input.outpoint) :
    (inputs.foldl scanInput scan).utxos = scan.utxos := by
  induction inputs generalizing scan with
  | nil => rfl
  | cons input inputs ih =>
      rw [List.forall_mem_cons] at hFree
      have hHere : (scanInput scan input).utxos =
          scan.utxos := by
        rw [scanInput_utxos]
        exact List.filter_eq_self.mpr fun entry hEntry =>
          decide_eq_true (hFree.1 entry hEntry)
      rw [List.foldl_cons, ih, hHere]
      rw [hHere]
      exact hFree.2

theorem scanTransaction_utxos
    (c : Crypto)
    (owned : List OwnedLock)
    (height : UInt32)
    (wallet : Wallet)
    (tx : Transaction) :
    (wallet.scanTransaction c owned height tx).utxos =
      (tx.inputs.foldl scanInput
          { utxos := wallet.utxos
            spent := 0
            received := 0
            touches := false }).utxos ++
        tx.outputs.zipIdx.filterMap
          (foundEntry c owned height tx) :=
  scanOutputs_utxos _ _

theorem add
    (hFound : Found owned coins utxos)
    {outpoint : OutPoint}
    {coin : Coin}
    (hAdd : coins.add outpoint coin = some after) :
    Found owned after utxos ∧
      ∀ entry : UtxoEntry,
        entry.outpoint = outpoint →
          entry.coin = coin →
            KeyedBy owned entry →
              Found owned after (utxos ++ [entry]) := by
  unfold Utxo.add at hAdd
  split at hAdd
  · cases hAdd
  rename_i hFree
  cases hAdd
  have hOutside : ∀ entry ∈ utxos,
      entry.outpoint ≠ outpoint := by
    intro entry hEntry hSame
    rw [← hSame, hFound.held entry hEntry] at hFree
    exact hFree rfl
  have hAfter :
      Found owned
        (Function.update coins outpoint (some coin))
        utxos :=
    hFound.change fun entry hEntry =>
      Function.update_of_ne (hOutside entry hEntry) _ _
  refine ⟨hAfter, ?_⟩
  intro entry hOutpoint hCoin hKeyed
  refine ⟨?_, ?_, ?_⟩
  · intro other hOther
    rcases List.mem_append.mp hOther with hOld | hNew
    · exact hAfter.held other hOld
    · rw [List.mem_singleton.mp hNew, hOutpoint, hCoin]
      exact Function.update_self ..
  · rw [List.map_append, List.nodup_append]
    refine ⟨hAfter.once, List.nodup_singleton _, ?_⟩
    intro first hFirst second hSecond
    rcases List.mem_map.mp hFirst with ⟨old, hOld, rfl⟩
    rw [List.map_singleton, List.mem_singleton] at hSecond
    rw [hSecond, hOutpoint]
    exact hOutside old hOld
  · intro other hOther
    rcases List.mem_append.mp hOther with hOld | hNew
    · exact hFound.keyed other hOld
    · rw [List.mem_singleton.mp hNew]
      exact hKeyed

theorem scanOutputs
    {c : Crypto}
    {tx : Transaction}
    {height : UInt32}
    (hOpenable : Openable owned)
    {outputs : List TxOutput}
    {index : Nat}
    {scan : TxScan}
    (hFound : Found owned coins scan.utxos)
    (hAdd :
      Utxo.addOutputs (tx.txid c) height tx.isCoinbase index
          outputs coins =
        .ok after) :
    Found owned after
      ((outputs.zipIdx index).foldl
        (scanOutput c owned height tx) scan).utxos := by
  induction outputs generalizing coins index scan with
  | nil =>
      cases hAdd
      exact hFound
  | cons output outputs ih =>
      unfold Utxo.addOutputs at hAdd
      rw [List.zipIdx_cons, List.foldl_cons]
      rcases hKey :
          owned.find? (·.lock = output.lock) with _ | key
      · have hSame :
            scanOutput c owned height tx scan
                (output, index) =
              scan := by
          rw [scanOutput, hKey]
        rw [hSame]
        split at hAdd
        · split at hAdd
          · cases hAdd
          rename_i next hNext
          exact ih (hFound.add hNext).1 hAdd
        · exact ih hFound hAdd
      · have hMember := List.mem_of_find?_eq_some hKey
        have hMatch := List.find?_some hKey
        have hLock : key.lock = output.lock :=
          of_decide_eq_true hMatch
        have hStored : isStored output = true := by
          rw [isStored, ← hLock, hOpenable key hMember]
          rfl
        rw [if_pos hStored] at hAdd
        split at hAdd
        · cases hAdd
        rename_i next hNext
        refine ih ?_ hAdd
        rw [scanOutput, hKey]
        exact (hFound.add hNext).2 _ rfl rfl
          ⟨key, hMember, hLock, rfl, rfl⟩

------------------------------------------------------------
-- Blocks
------------------------------------------------------------

variable {c : Crypto} {params : ChainParams}
variable {wallet : Wallet}

theorem scanSpends
    (hOpenable : Openable owned)
    {height : UInt32}
    {txs : List Transaction}
    {fees totalFees : Int64}
    {undo : List TxUndo}
    (hFound : Found owned coins wallet.utxos)
    (hConnect :
      Utxo.connectSpends c params height txs fees coins =
        .ok (undo, totalFees, after)) :
    Found owned after
      (txs.foldl (scanTransaction c owned height)
        wallet).utxos := by
  induction txs generalizing coins wallet fees undo with
  | nil =>
      cases hConnect
      exact hFound
  | cons tx txs ih =>
      rcases Utxo.connectSpends_cons.mp hConnect with
        ⟨spent, unspent, fee, feesNow, created, rest, -,
          hPlain, hSpent, -, -, hCreated, hRest⟩
      rw [List.foldl_cons]
      refine ih ?_ hRest
      rw [← hPlain] at hCreated
      exact scanOutputs hOpenable
        (hFound.scanInputs hSpent) hCreated

/- Connecting and scanning a block keep in step. -/
theorem scanBlock
    (hOpenable : Openable owned)
    {block : Block}
    {result : ConnectResult}
    (hFound : Found owned coins wallet.utxos)
    (hConnect :
      Utxo.connectBlock c params block coins =
        .ok (result, after)) :
    Found owned after
      (Wallet.scanBlock c owned wallet
        (block, block.header.height)).utxos := by
  rcases Utxo.connectBlock_eq_ok.mp hConnect with
    ⟨first, rest, created, hTxs, hFirst, hCreated, hRest, -⟩
  rw [Wallet.scanBlock, hTxs, List.foldl_cons]
  refine scanSpends hOpenable ?_ hRest
  rw [← hFirst] at hCreated
  exact scanOutputs hOpenable
    (hFound.sublist (scanInputs_sublist _ _)) hCreated

end Found

------------------------------------------------------------
-- Chains
------------------------------------------------------------

/- The blocks above genesis, each with its height. -/
def scannedBlocks
    (files : Hash256 → Option Block)
    (chain : List Hash256) : List (Block × UInt32) :=
  (bodiesAbove files chain).map fun block =>
    (block, block.header.height)

/- By induction on the chain, whose coins are replayed. -/
theorem found_of_replay
    {c : Crypto}
    {params : ChainParams}
    {owned : List OwnedLock}
    (hOpenable : Openable owned)
    {wallet : Wallet}
    (hEmpty : wallet.utxos = [])
    {files : Hash256 → Option Block}
    {chain : List Hash256}
    {coins : Utxo}
    (hReplay : replay c params files chain = some coins) :
    Found owned coins
      ((scannedBlocks files chain).foldl
        (scanBlock c owned) wallet).utxos := by
  induction chain generalizing coins with
  | nil => cases hReplay
  | cons hash below ih =>
      cases below with
      | nil =>
          cases hReplay
          change Found owned _ wallet.utxos
          rw [hEmpty]
          exact .empty _
      | cons parent below =>
          rcases replay_cons.mp hReplay with
            ⟨before, block, result, hBefore, hBlock, hConnect⟩
          rw [scannedBlocks, bodiesAbove_cons hBlock,
            List.map_append, List.foldl_append]
          exact (ih hBefore).scanBlock hOpenable hConnect

/- Scanning changes the coins and the records only. -/
structure SameKeys
    (before after : Wallet) : Prop where
  seed : after.seed = before.seed
  params : after.params = before.params
  accounts : after.db.accounts = before.db.accounts
  tipHeight : after.tipHeight = before.tipHeight

namespace SameKeys

variable {c : Crypto} {owned : List OwnedLock}

theorem trans
    {first second third : Wallet}
    (hFirst : SameKeys first second)
    (hSecond : SameKeys second third) :
    SameKeys first third where
  seed := hSecond.seed.trans hFirst.seed
  params := hSecond.params.trans hFirst.params
  accounts := hSecond.accounts.trans hFirst.accounts
  tipHeight := hSecond.tipHeight.trans hFirst.tipHeight

theorem foldl
    {α : Type}
    {step : Wallet → α → Wallet}
    (hStep : ∀ wallet item, SameKeys wallet (step wallet item))
    (items : List α)
    (wallet : Wallet) :
    SameKeys wallet (items.foldl step wallet) := by
  induction items generalizing wallet with
  | nil => exact ⟨rfl, rfl, rfl, rfl⟩
  | cons item items ih =>
      exact (hStep wallet item).trans (ih _)

theorem scanTransaction
    (height : UInt32)
    (wallet : Wallet)
    (tx : Transaction) :
    SameKeys wallet
      (wallet.scanTransaction c owned height tx) where
  seed := rfl
  params := rfl
  accounts := by
    rw [Wallet.scanTransaction]
    dsimp only
    split
    · rfl
    · rfl
  tipHeight := rfl

theorem scanBlocks
    (blocks : List (Block × UInt32))
    (wallet : Wallet) :
    SameKeys wallet
      (blocks.foldl (scanBlock c owned) wallet) := by
  refine foldl ?_ blocks wallet
  intro wallet scanned
  exact foldl (scanTransaction scanned.2)
    scanned.1.transactions wallet

end SameKeys

/- What a rescan leaves behind. -/
theorem rescan_eq_some
    {c : Crypto}
    {signer : Signer}
    {before after : Wallet}
    {blocks : List (Block × UInt32)}
    (hRescan : before.rescan c signer blocks = some after) :
    after.seed = before.seed ∧
      after.params = before.params ∧
      after.db.accounts = before.db.accounts ∧
      after.tipHeight =
        (match blocks.getLast? with
        | none => 0
        | some last => last.2) ∧
      ∃ start : Wallet,
        start.utxos = [] ∧
          after.utxos =
            (blocks.foldl
              (scanBlock c (before.ownedLocks c signer))
              start).utxos := by
  unfold rescan at hRescan
  split at hRescan
  · cases hRescan
  cases hRescan
  have hSame := @SameKeys.scanBlocks c
    (before.ownedLocks c signer) blocks
    { before with
      utxos := []
      tipHeight :=
        match blocks.getLast? with
        | none => 0
        | some last => last.2 }
  exact ⟨hSame.seed, hSame.params, hSame.accounts,
    hSame.tipHeight, _, rfl, rfl⟩

end Wallet

end Amarian
