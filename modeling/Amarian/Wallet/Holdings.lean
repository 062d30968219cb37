import Amarian.Wallet.Chains
import Amarian.Wallet.History

/-
  A rescan finds all coins of the wallet, each of them once.

  Wallet and chain each fold over the blocks on their own.
  They stay in step, also where a coin is received and spent
  in one block.

  Key definitions include:
    * `Wallet.Complete`
    * `Wallet.Derives`
    * `Wallet.Holdings`

  Key theorems include:
    * `Wallet.ActiveBlocks.scanned`
    * `Wallet.balance_eq`
    * `Wallet.rescan_exact_iff`
-/

------------------------------------------------------------
-- No Coin Is Missed
------------------------------------------------------------

namespace Amarian

namespace Wallet

/- Every coin under an own lock has an entry. -/
def Complete
    (owned : List OwnedLock)
    (coins : Utxo)
    (utxos : List UtxoEntry) : Prop :=
  ∀ outpoint coin, coins outpoint = some coin →
    (∃ key ∈ owned, key.lock = coin.output.lock) →
      ∃ entry ∈ utxos, entry.outpoint = outpoint

namespace Complete

variable {c : Crypto} {params : ChainParams}
variable {owned : List OwnedLock}
variable {coins after : Utxo} {wallet : Wallet}

theorem empty :
    Complete owned Utxo.empty [] :=
  fun _ _ hCoin => nomatch hCoin

/- A coin that is left had no input, and its entry neither. -/
theorem scanInputs
    {inputs : List TxInput}
    {spent : List Coin}
    {scan : TxScan}
    (hComplete : Complete owned coins scan.utxos)
    (hSpend :
      Utxo.spendInputs inputs coins = .ok (spent, after)) :
    Complete owned after
      (inputs.foldl scanInput scan).utxos := by
  induction inputs generalizing coins scan spent with
  | nil =>
      cases hSpend
      exact hComplete
  | cons input inputs ih =>
      rcases Utxo.spendInputs_cons.mp hSpend with
        ⟨coin, rest, -, -, hRest⟩
      rw [List.foldl_cons]
      refine ih ?_ hRest
      intro outpoint other hOther hOwned
      by_cases hSame : outpoint = input.outpoint
      · rw [hSame, Function.update_self] at hOther
        cases hOther
      · rw [Function.update_of_ne hSame] at hOther
        rcases hComplete outpoint other hOther hOwned with
          ⟨entry, hEntry, rfl⟩
        refine ⟨entry, ?_, rfl⟩
        rw [Found.scanInput_utxos]
        exact List.mem_filter.mpr
          ⟨hEntry, decide_eq_true hSame⟩

/- A new coin is an output, which the scan comes to as well. -/
theorem scanOutputs
    {tx : Transaction}
    {height : UInt32}
    {isCoinbase : Bool}
    {scan : TxScan}
    (hComplete : Complete owned coins scan.utxos)
    (hAdd :
      Utxo.addOutputs (tx.txid c) height isCoinbase 0
          tx.outputs coins =
        .ok after) :
    Complete owned after
      (tx.outputs.zipIdx.foldl (scanOutput c owned height tx)
        scan).utxos := by
  rw [Found.scanOutputs_utxos]
  intro outpoint coin hCoin hOwned
  rcases Utxo.addOutputs_origin hAdd outpoint coin hCoin with
    hBefore | ⟨place, hOutput, rfl⟩
  · rcases hComplete outpoint coin hBefore hOwned with
      ⟨entry, hEntry, hSame⟩
    exact ⟨entry, List.mem_append_left _ hEntry, hSame⟩
  · have hFound :
        (owned.find? (·.lock = coin.output.lock)).isSome =
          true := by
      rcases hOwned with ⟨key, hKey, hLock⟩
      exact List.find?_isSome.mpr
        ⟨key, hKey, decide_eq_true hLock⟩
    rcases Option.isSome_iff_exists.mp hFound with
      ⟨key, hFind⟩
    have hPlaced : (coin.output, place) ∈
        tx.outputs.zipIdx :=
      List.mem_zipIdx_iff_getElem?.mpr hOutput
    rcases hMade :
        foundEntry c owned height tx (coin.output, place)
      with _ | entry
    · rw [foundEntry, hFind] at hMade
      cases hMade
    · refine ⟨entry, List.mem_append_right _
        (List.mem_filterMap.mpr ⟨_, hPlaced, hMade⟩), ?_⟩
      rw [foundEntry, hFind] at hMade
      cases hMade
      rw [Nat.zero_add]
      rfl

theorem scanSpends
    {height : UInt32}
    {txs : List Transaction}
    {fees totalFees : Int64}
    {undo : List TxUndo}
    (hComplete : Complete owned coins wallet.utxos)
    (hConnect :
      Utxo.connectSpends c params height txs fees coins =
        .ok (undo, totalFees, after)) :
    Complete owned after
      (txs.foldl (scanTransaction c owned height)
        wallet).utxos := by
  induction txs generalizing coins wallet fees undo with
  | nil =>
      cases hConnect
      exact hComplete
  | cons tx txs ih =>
      rcases Utxo.connectSpends_cons.mp hConnect with
        ⟨spent, unspent, fee, feesNow, created, rest, -, -,
          hSpent, -, -, hCreated, hRest⟩
      rw [List.foldl_cons]
      exact ih (scanOutputs (hComplete.scanInputs hSpent)
        hCreated) hRest

/- The sentinel that a coinbase names is no coin. -/
theorem scanBlock
    {block : Block}
    {result : ConnectResult}
    (hReal :
      ∀ entry ∈ wallet.utxos,
        entry.outpoint.isNull = false)
    (hComplete : Complete owned coins wallet.utxos)
    (hConnect :
      Utxo.connectBlock c params block coins =
        .ok (result, after)) :
    Complete owned after
      (Wallet.scanBlock c owned wallet
        (block, block.header.height)).utxos := by
  rcases Utxo.connectBlock_eq_ok.mp hConnect with
    ⟨first, rest, created, hTxs, hFirst, hCreated, hRest, -⟩
  rw [Wallet.scanBlock, hTxs, List.foldl_cons]
  refine scanSpends (scanOutputs ?_ hCreated) hRest
  rw [Found.scanInputs_same]
  · exact hComplete
  · intro input hInput entry hEntry hSame
    have hNull := hReal entry hEntry
    rw [hSame] at hNull
    unfold Transaction.isCoinbase at hFirst
    split at hFirst
    · rename_i own hOne
      rw [hOne, List.mem_singleton] at hInput
      rw [hInput, hFirst] at hNull
      cases hNull
    · cases hFirst

end Complete

/- By induction on the blocks, each of which keeps in step. -/
theorem ActiveBlocks.scanned
    {c : Crypto}
    {params : ChainParams}
    {network : Network}
    (hNetwork : params = paramsFor network)
    {owned : List OwnedLock}
    (hOpenable : Openable owned)
    {blocks : List (Block × UInt32)}
    {coins : Utxo}
    (hActive : ActiveBlocks c params blocks coins)
    {start : Wallet}
    (hEmpty : start.utxos = []) :
    Found owned coins
        (blocks.foldl (scanBlock c owned) start).utxos ∧
      Complete owned coins
        (blocks.foldl (scanBlock c owned) start).utxos := by
  induction hActive with
  | genesis =>
      rw [List.foldl_nil, hEmpty]
      exact ⟨.empty _, .empty⟩
  | block hBelow _ hHeader _ hConnect ih =>
      rcases ih with ⟨hFound, hComplete⟩
      have hReal := hBelow.real hNetwork
      rw [List.foldl_append, List.foldl_cons, List.foldl_nil,
        ← hHeader]
      exact ⟨hFound.scanBlock hOpenable hConnect,
        hComplete.scanBlock
          (fun entry hEntry =>
            hReal _ _ (hFound.held entry hEntry))
          hConnect⟩

------------------------------------------------------------
-- The Balance
------------------------------------------------------------

section Balances

variable {params : ChainParams} {tipHeight : UInt32}

def mature
    (params : ChainParams)
    (tipHeight : UInt32)
    (entry : UtxoEntry) : Bool :=
  isMature params tipHeight entry.coin

theorem foldl_addBalance
    (entries : List UtxoEntry)
    (balance : Balance) :
    entries.foldl (addBalance params tipHeight) balance =
      { confirmed :=
          ((entries.filter (mature params tipHeight)).map
            UtxoEntry.amount).foldl
              (fun total amount => total + amount)
              balance.confirmed
        pending :=
          ((entries.filter (!mature params tipHeight ·)).map
            UtxoEntry.amount).foldl
              (fun total amount => total + amount)
              balance.pending } := by
  induction entries generalizing balance with
  | nil => rfl
  | cons entry entries ih =>
      rw [List.foldl_cons, ih, addBalance]
      rcases hMature : isMature params tipHeight entry.coin
        with _ | _
      · rw [List.filter_cons_of_neg (by rw [mature, hMature]; decide),
          List.filter_cons_of_pos (by rw [mature, hMature]; decide)]
        rfl
      · rw [List.filter_cons_of_pos (by rw [mature, hMature]),
          List.filter_cons_of_neg (by rw [mature, hMature]; decide)]
        rfl

theorem Summable.toInt_sum
    {entries : List UtxoEntry}
    (hSummable : Summable entries) :
    ((entries.map UtxoEntry.amount).foldl
        (fun total amount => total + amount) 0).toInt =
      totalValue entries := by
  rw [List.foldl_map]
  exact hSummable.toInt_foldl

theorem Summable.filter
    {entries : List UtxoEntry}
    (hSummable : Summable entries)
    (keep : UtxoEntry → Bool) :
    Summable (entries.filter keep) where
  nonneg := fun entry hEntry =>
    hSummable.nonneg entry (List.mem_of_mem_filter hEntry)
  bounded := by
    refine Int.lt_of_le_of_lt
      (List.Sublist.sum_le_sum
        (List.filter_sublist.map _) ?_) hSummable.bounded
    intro amount hAmount
    rcases List.mem_map.mp hAmount with ⟨entry, hEntry, rfl⟩
    exact hSummable.nonneg entry hEntry

/- What is confirmed and what is pending make up the whole. -/
theorem balance_eq
    {entries : List UtxoEntry}
    (hSummable : Summable entries) :
    let balance :=
      entries.foldl (addBalance params tipHeight)
        { confirmed := 0, pending := 0 }
    balance.confirmed.toInt =
        totalValue
          (entries.filter (mature params tipHeight)) ∧
      balance.confirmed.toInt + balance.pending.toInt =
        totalValue entries := by
  intro balance
  have hConfirmed :
      balance.confirmed.toInt =
        totalValue
          (entries.filter (mature params tipHeight)) := by
    change (entries.foldl (addBalance params tipHeight)
      { confirmed := 0, pending := 0 }).confirmed.toInt = _
    rw [foldl_addBalance]
    exact (hSummable.filter _).toInt_sum
  have hPending :
      balance.pending.toInt =
        totalValue
          (entries.filter
            (!mature params tipHeight ·)) := by
    change (entries.foldl (addBalance params tipHeight)
      { confirmed := 0, pending := 0 }).pending.toInt = _
    rw [foldl_addBalance]
    exact (hSummable.filter _).toInt_sum
  refine ⟨hConfirmed, ?_⟩
  have hParts :=
    ((List.filter_append_perm (mature params tipHeight)
      entries).map
        fun entry => entry.amount.toInt).sum_eq
  rw [List.map_append, List.sum_append] at hParts
  rw [hConfirmed, hPending]
  exact hParts

end Balances

------------------------------------------------------------
-- What A Rescan Finds
------------------------------------------------------------

/- The lock of an index that its account has come to. -/
def Derives
    (c : Crypto)
    (signer : Signer)
    (wallet : Wallet)
    (lock : Lock) : Prop :=
  ∃ place account,
    wallet.db.accounts[place]? = some account ∧
      ∃ index : UInt32,
        index ≤ account.highestDerived ∧
          wallet.deriveLock c signer (UInt32.ofNat place)
              index =
            lock

/- The ids of the accounts are their places. -/
def InPlace
    (wallet : Wallet) : Prop :=
  ∀ (place : Nat) (account : Account),
    wallet.db.accounts[place]? = some account →
      account.accountId.toNat = place

theorem exists_ownedLock_iff
    {c : Crypto}
    {signer : Signer}
    {wallet : Wallet}
    (hInPlace : wallet.InPlace)
    {lock : Lock} :
    (∃ key ∈ wallet.ownedLocks c signer, key.lock = lock) ↔
      wallet.Derives c signer lock := by
  constructor
  · intro hOwned
    rcases hOwned with ⟨key, hKey, hLock⟩
    rcases List.mem_flatMap.mp hKey with
      ⟨account, hAccount, hIndex⟩
    rcases List.mem_map.mp hIndex with ⟨index, hRange, rfl⟩
    rcases List.mem_iff_getElem?.mp hAccount with
      ⟨place, hPlace⟩
    have hId := hInPlace place account hPlace
    rw [List.mem_range] at hRange
    have hBound := account.highestDerived.toNat_lt
    refine ⟨place, account, hPlace, UInt32.ofNat index, ?_, ?_⟩
    · rw [UInt32.le_iff_toNat_le, UInt32.toNat_ofNat']
      omega
    · rw [← hId, UInt32.ofNat_toNat]
      exact hLock
  · intro hDerives
    rcases hDerives with
      ⟨place, account, hPlace, index, hIndex, hLock⟩
    have hId := hInPlace place account hPlace
    rw [UInt32.le_iff_toNat_le] at hIndex
    refine ⟨_, List.mem_flatMap.mpr ⟨account,
      List.mem_of_getElem? hPlace, List.mem_map.mpr
        ⟨index.toNat, List.mem_range.mpr (by omega), rfl⟩⟩,
      ?_⟩
    dsimp only
    rw [UInt32.ofNat_toNat]
    rw [← hId, UInt32.ofNat_toNat] at hLock
    exact hLock

/-
  The entries of a wallet are the coins under its locks, each
  of them once, and its balance is what they are worth.
-/
structure Holdings
    (c : Crypto)
    (signer : Signer)
    (before : Wallet)
    (coins : Utxo)
    (after : Wallet) : Prop where
  exact :
    ∀ outpoint coin,
      (∃ entry ∈ after.utxos,
          entry.outpoint = outpoint ∧ entry.coin = coin) ↔
        coins outpoint = some coin ∧
          before.Derives c signer coin.output.lock
  once : (after.utxos.map UtxoEntry.outpoint).Nodup
  balance :
    after.balance.confirmed.toInt +
        after.balance.pending.toInt =
      totalValue after.utxos

section Rescans

variable {c : Crypto} {signer : Signer} {network : Network}
variable {blocks : List (Block × UInt32)} {coins : Utxo}
variable {params : ChainParams} {before after : Wallet}

/- What a rescan finds is worth no more than all the money. -/
theorem Found.summable
    {owned : List OwnedLock}
    {entries : List UtxoEntry}
    (hNetwork : params = paramsFor network)
    (hActive : ActiveBlocks c params blocks coins)
    (hFound : Found owned coins entries) :
    Summable entries := by
  rcases hActive.worth_le hNetwork with
    ⟨total, hWorth, hLe⟩
  have hPriced := hActive.priced
  have hMoney : maxMoney.toInt = 83999999932170000 := rfl
  have hTotal := hFound.totalValue_le hPriced hWorth
  refine ⟨?_, by omega⟩
  exact fun entry hEntry =>
    hPriced _ _ (hFound.held entry hEntry)

theorem scanned_of_rescan
    (hNetwork : params = paramsFor network)
    (hActive : ActiveBlocks c params blocks coins)
    (hRescan : before.rescan c signer blocks = some after) :
    Found (before.ownedLocks c signer) coins after.utxos ∧
      Complete (before.ownedLocks c signer) coins
        after.utxos := by
  rcases rescan_eq_some hRescan with
    ⟨-, -, -, -, start, hStart, hUtxos⟩
  rw [hUtxos]
  exact hActive.scanned hNetwork
    (openable_ownedLocks c signer before) hStart

theorem balance_of_rescan
    (hNetwork : params = paramsFor network)
    (hActive : ActiveBlocks c params blocks coins)
    (hRescan : before.rescan c signer blocks = some after) :
    after.balance.confirmed.toInt =
        totalValue
          (after.utxos.filter
            (mature after.params after.tipHeight)) ∧
      after.balance.confirmed.toInt +
          after.balance.pending.toInt =
        totalValue after.utxos := by
  have hFound :=
    (scanned_of_rescan hNetwork hActive hRescan).1
  rcases rescan_eq_some hRescan with
    ⟨-, hParams, -, hTip, -⟩
  rcases rescan_scans hRescan with
    ⟨start, -, -, hUtxos, -, hBalance⟩
  rw [hBalance, ← hUtxos, hTip, hParams]
  exact balance_eq (hFound.summable hNetwork hActive)

theorem holdings_of_rescan
    (hNetwork : params = paramsFor network)
    (hActive : ActiveBlocks c params blocks coins)
    (hInPlace : before.InPlace)
    (hRescan : before.rescan c signer blocks = some after) :
    Holdings c signer before coins after := by
  rcases scanned_of_rescan hNetwork hActive hRescan with
    ⟨hFound, hComplete⟩
  constructor
  case exact =>
    intro outpoint coin
    rw [← exists_ownedLock_iff hInPlace]
    constructor
    · intro hEntries
      rcases hEntries with ⟨entry, hEntry, rfl, rfl⟩
      rcases hFound.keyed entry hEntry with
        ⟨key, hKey, hLock, -⟩
      exact ⟨hFound.held entry hEntry, key, hKey, hLock⟩
    · intro hOwned
      rcases hComplete outpoint coin hOwned.1 hOwned.2 with
        ⟨entry, hEntry, rfl⟩
      have hHeld := hFound.held entry hEntry
      rw [hOwned.1] at hHeld
      cases hHeld
      exact ⟨entry, hEntry, rfl, rfl⟩
  case once => exact hFound.once
  case balance =>
    exact (balance_of_rescan hNetwork hActive hRescan).2

end Rescans

end Wallet

------------------------------------------------------------
-- Samples
------------------------------------------------------------

namespace Sample

open Wallet

/- The first block pays one coin to the new wallet. -/
theorem payable_smallCoin :
    Payable [smallCoin] := by
  constructor <;> decide +kernel

def lineBlocks
    (first : List TxOutput)
    (height : Nat) : List (Block × UInt32) :=
  (List.range' 1 height).map fun place =>
    (lineBlock first place, UInt32.ofNat place)

theorem activeBlocks_line
    {first : List TxOutput}
    (hFirst : Payable first)
    {height : Nat}
    (hSmall : height < 2 ^ 32) :
    ActiveBlocks cheapCrypto regtestParams
      (lineBlocks first height) (lineCoins first height) := by
  have hActive := activeBlocks_of_run calm_cheap
    (@injOn_lineHeaders first height hSmall)
  rw [(line_reached hFirst hSmall).2, scannedBlocks,
    storedBodies_line hFirst hSmall, List.map_map] at hActive
  have hSame :
      (List.range' 1 height).map
          ((fun block : Block =>
            (block, block.header.height)) ∘
              lineBlock first) =
        lineBlocks first height := by
    refine List.map_congr_left fun place _ => ?_
    change (_, _) = (_, _)
    rw [lineBlock, (lineHeader_fields place).1]
  rw [hSame] at hActive
  exact hActive

theorem inPlace_newWallet :
    newWallet.InPlace := by
  intro place account hAccount
  rcases place with _ | place
  · cases hAccount
    rfl
  · cases hAccount

end Sample

end Amarian
