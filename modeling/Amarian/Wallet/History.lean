import Amarian.Wallet.Sends

/-
  What a wallet keeps from one rescan to the next.

  Key definitions include:
    * `Wallet.Reached`
    * `Wallet.touchedTxids`
    * `Wallet.confirmedTxs`
    * `Wallet.ConfirmedWithin`

  Key theorems include:
    * `Wallet.Reached.filed`
    * `Wallet.scan_untouched`
    * `Wallet.confirmedWithin_rescan_iff`
    * `Wallet.rescan_agree_iff`
-/

------------------------------------------------------------
-- Records
------------------------------------------------------------

namespace Amarian

namespace Wallet

def addTransaction
    (wallet : Wallet)
    (stored : StoredTransaction) : Wallet :=
  { wallet with db := wallet.db.storeTx stored }

/-
  The wallets of a run.  No record is read from the file, and
  nothing but these calls stores one.
-/
inductive Reached
    (c : Crypto)
    (sort : ValueSort)
    (signer : Signer) : Wallet → Prop where
  | opened
      {wallet : Wallet}
      (hNone : ∀ txid, wallet.db.txs txid = none) :
      Reached c sort signer wallet
  | rescan
      {before after : Wallet}
      {blocks : List (Block × UInt32)}
      (hBefore : Reached c sort signer before)
      (hRescan :
        before.rescan c signer blocks = some after) :
      Reached c sort signer after
  | send
      {before after : Wallet}
      {call : SendCall}
      {result : SendResult}
      (hBefore : Reached c sort signer before)
      (hSend :
        before.perform c sort signer call =
          some (result, after)) :
      Reached c sort signer after
  | addTransaction
      {before : Wallet}
      (hBefore : Reached c sort signer before)
      (stored : StoredTransaction) :
      Reached c sort signer (before.addTransaction stored)
  -- new addresses and accounts, and a restored backup
  | rekeyed
      {before after : Wallet}
      (hBefore : Reached c sort signer before)
      (hSame : after.db.txs = before.db.txs) :
      Reached c sort signer after

/- What `ListTransactions` reports with a height. -/
def confirmedTxs
    (wallet : Wallet) : Set StoredTransaction :=
  {stored |
    0 ≤ stored.height ∧
      ∃ txid, wallet.db.txs txid = some stored}

def confirmedAt
    (wallet : Wallet)
    (txid : Hash256) : Option StoredTransaction :=
  (wallet.db.txs txid).filter (0 ≤ ·.height)

/- Nothing else is reported with a height. -/
def ConfirmedWithin
    (txids : List Hash256)
    (wallet : Wallet) : Prop :=
  ∀ stored ∈ wallet.confirmedTxs, stored.txid ∈ txids

/- Every record is kept under its own identifier. -/
def Filed
    (wallet : Wallet) : Prop :=
  ∀ txid stored,
    wallet.db.txs txid = some stored → stored.txid = txid

section Scanning

variable (c : Crypto) (owned : List OwnedLock)

def placedTxs
    (blocks : List (Block × UInt32)) :
    List (Transaction × UInt32) :=
  blocks.flatMap fun scanned =>
    scanned.1.transactions.map (·, scanned.2)

/- The transactions that the blocks hold. -/
def placedTxids
    (blocks : List (Block × UInt32)) : List Hash256 :=
  (placedTxs blocks).map fun placed => placed.1.txid c

def scanPlaced
    (wallet : Wallet)
    (placed : Transaction × UInt32) : Wallet :=
  wallet.scanTransaction c owned placed.2 placed.1

/- The transactions that move a coin of the wallet. -/
def touchedTxids :
    List UtxoEntry → List (Transaction × UInt32) →
      List Hash256
  | _, [] => []
  | utxos, (tx, height) :: placed =>
      let scan := scanMoves c owned height tx utxos
      let rest := touchedTxids scan.utxos placed
      if scan.touches then tx.txid c :: rest else rest

end Scanning

------------------------------------------------------------
-- Where Records Are Kept
------------------------------------------------------------

section Filing

theorem Filed.storeTx
    {wallet : Wallet}
    (hFiled : Filed wallet)
    (stored : StoredTransaction) :
    Filed (wallet.addTransaction stored) := by
  intro txid other hOther
  by_cases hHere : txid = stored.txid
  · rw [hHere, addTransaction, WalletDb.storeTx] at hOther
    cases (Function.update_self ..).symm.trans hOther
    exact hHere.symm
  · refine hFiled txid other ?_
    rw [← hOther, addTransaction, WalletDb.storeTx]
    exact (Function.update_of_ne hHere ..).symm

theorem Filed.of_txs
    {before after : Wallet}
    (hFiled : Filed before)
    (hSame : after.db.txs = before.db.txs) :
    Filed after := by
  intro txid stored hStored
  rw [hSame] at hStored
  exact hFiled txid stored hStored

theorem mem_confirmedTxs
    {wallet : Wallet}
    (hFiled : Filed wallet)
    {stored : StoredTransaction} :
    stored ∈ wallet.confirmedTxs ↔
      wallet.confirmedAt stored.txid = some stored := by
  rw [confirmedAt, Option.filter_eq_some_iff,
    decide_eq_true_eq]
  constructor
  · rintro ⟨hHeight, txid, hStored⟩
    rw [hFiled txid stored hStored]
    exact ⟨hStored, hHeight⟩
  · rintro ⟨hStored, hHeight⟩
    exact ⟨hHeight, stored.txid, hStored⟩

theorem txid_of_confirmedAt
    {wallet : Wallet}
    (hFiled : Filed wallet)
    {txid : Hash256}
    {stored : StoredTransaction}
    (hStored : wallet.confirmedAt txid = some stored) :
    stored.txid = txid :=
  hFiled txid stored
    (Option.filter_eq_some_iff.mp hStored).1

/- The reports agree where each identifier's records do. -/
theorem confirmedTxs_eq_iff
    {first second : Wallet}
    (hFirst : Filed first)
    (hSecond : Filed second) :
    first.confirmedTxs = second.confirmedTxs ↔
      ∀ txid,
        first.confirmedAt txid =
          second.confirmedAt txid := by
  constructor
  · intro hSame txid
    refine Option.ext fun stored => ?_
    constructor
    · intro hStored
      have hTxid := txid_of_confirmedAt hFirst hStored
      rw [← hTxid] at hStored ⊢
      rw [← mem_confirmedTxs hFirst, hSame] at hStored
      exact (mem_confirmedTxs hSecond).mp hStored
    · intro hStored
      have hTxid := txid_of_confirmedAt hSecond hStored
      rw [← hTxid] at hStored ⊢
      rw [← mem_confirmedTxs hSecond, ← hSame] at hStored
      exact (mem_confirmedTxs hFirst).mp hStored
  · intro hSame
    refine Set.ext fun stored => ?_
    rw [mem_confirmedTxs hFirst, mem_confirmedTxs hSecond,
      hSame]

end Filing

------------------------------------------------------------
-- Scanning
------------------------------------------------------------

section Steps

variable {c : Crypto} {owned : List OwnedLock}

theorem foldl_scanBlock
    (blocks : List (Block × UInt32))
    (wallet : Wallet) :
    blocks.foldl (scanBlock c owned) wallet =
      (placedTxs blocks).foldl (scanPlaced c owned)
        wallet := by
  rw [placedTxs, List.foldl_flatMap]
  refine congrArg (fun step => blocks.foldl step wallet) ?_
  funext wallet scanned
  rw [List.foldl_map]
  rfl

/- A record comes in only where a coin moves. -/
theorem scanTransaction_txs
    (height : UInt32)
    (wallet : Wallet)
    (tx : Transaction) :
    let scan := scanMoves c owned height tx wallet.utxos
    (wallet.scanTransaction c owned height tx).db.txs =
      if scan.touches then
        Function.update wallet.db.txs (tx.txid c)
          (some (storedFor c height tx scan))
      else
        wallet.db.txs := by
  intro scan
  rw [scanTransaction]
  dsimp only
  split
  · rfl
  · rfl

theorem filed_scanPlaced
    {wallet : Wallet}
    (hFiled : Filed wallet)
    (placed : Transaction × UInt32) :
    Filed (wallet.scanPlaced c owned placed) := by
  have hTxs := @scanTransaction_txs c owned placed.2 wallet
    placed.1
  dsimp only at hTxs
  split at hTxs
  · exact (hFiled.storeTx (storedFor c placed.2 placed.1
      (scanMoves c owned placed.2 placed.1
        wallet.utxos))).of_txs hTxs
  · exact hFiled.of_txs hTxs

theorem filed_scan
    {wallet : Wallet}
    (hFiled : Filed wallet)
    (placed : List (Transaction × UInt32)) :
    Filed (placed.foldl (scanPlaced c owned) wallet) := by
  induction placed generalizing wallet with
  | nil => exact hFiled
  | cons tx placed ih =>
      exact ih (filed_scanPlaced hFiled tx)

/- The coins that are found depend on nothing else. -/
theorem scan_utxos
    {first second : Wallet}
    (hSame : first.utxos = second.utxos)
    (placed : List (Transaction × UInt32)) :
    (placed.foldl (scanPlaced c owned) first).utxos =
      (placed.foldl (scanPlaced c owned) second).utxos := by
  induction placed generalizing first second with
  | nil => exact hSame
  | cons tx placed ih =>
      refine ih ?_
      rw [scanPlaced, scanPlaced, scanTransaction,
        scanTransaction, hSame]

/- A record that no transaction replaces stays. -/
theorem scan_untouched
    {wallet : Wallet}
    {placed : List (Transaction × UInt32)}
    {txid : Hash256}
    (hTxid :
      txid ∉ touchedTxids c owned wallet.utxos placed) :
    (placed.foldl (scanPlaced c owned) wallet).db.txs txid =
      wallet.db.txs txid := by
  induction placed generalizing wallet with
  | nil => rfl
  | cons head placed ih =>
      rcases head with ⟨tx, height⟩
      have hTxs := @scanTransaction_txs c owned height wallet
        tx
      rw [touchedTxids] at hTxid
      dsimp only at hTxid hTxs
      rw [List.foldl_cons]
      by_cases hTouches :
          (scanMoves c owned height tx
            wallet.utxos).touches = true
      · rw [if_pos hTouches, List.mem_cons, not_or]
          at hTxid
        rw [if_pos hTouches] at hTxs
        refine (ih hTxid.2).trans ?_
        rw [scanPlaced, hTxs]
        exact Function.update_of_ne hTxid.1 _ _
      · rw [if_neg hTouches] at hTxid hTxs
        refine (ih hTxid).trans ?_
        rw [scanPlaced, hTxs]

/- What is recorded is a transaction of the blocks. -/
theorem touchedTxids_subset
    (utxos : List UtxoEntry)
    (placed : List (Transaction × UInt32)) :
    touchedTxids c owned utxos placed ⊆
      placed.map fun placed => placed.1.txid c := by
  induction placed generalizing utxos with
  | nil => exact List.nil_subset _
  | cons head placed ih =>
      rcases head with ⟨tx, height⟩
      rw [touchedTxids]
      split
      · exact List.cons_subset_cons _ (ih _)
      · exact List.Subset.trans (ih _)
          (List.subset_cons_self _ _)

/- What is replaced is replaced by the same in both. -/
theorem scan_touched
    {first second : Wallet}
    (hSame : first.utxos = second.utxos)
    {placed : List (Transaction × UInt32)}
    {txid : Hash256}
    (hTxid :
      first.db.txs txid = second.db.txs txid ∨
        txid ∈ touchedTxids c owned first.utxos placed) :
    (placed.foldl (scanPlaced c owned) first).db.txs txid =
      (placed.foldl (scanPlaced c owned) second).db.txs
        txid := by
  induction placed generalizing first second with
  | nil => exact hTxid.resolve_right List.not_mem_nil
  | cons head placed ih =>
      rcases head with ⟨tx, height⟩
      have hTxs := @scanTransaction_txs c owned height first
        tx
      have hOther := @scanTransaction_txs c owned height
        second tx
      rw [touchedTxids] at hTxid
      dsimp only at hTxid hTxs hOther
      rw [← hSame] at hOther
      rw [List.foldl_cons, List.foldl_cons]
      refine ih ?_ ?_
      · rw [scanPlaced, scanPlaced, scanTransaction,
          scanTransaction, hSame]
      rw [scanPlaced, scanPlaced, hTxs, hOther]
      by_cases hTouches :
          (scanMoves c owned height tx
            first.utxos).touches = true
      · rw [if_pos hTouches] at hTxid
        rw [if_pos hTouches, if_pos hTouches]
        by_cases hHere : txid = tx.txid c
        · left
          rw [hHere, Function.update_self,
            Function.update_self]
        · rw [Function.update_of_ne hHere,
            Function.update_of_ne hHere]
          rw [List.mem_cons, or_iff_right hHere] at hTxid
          exact hTxid
      · rw [if_neg hTouches] at hTxid
        rw [if_neg hTouches, if_neg hTouches]
        exact hTxid

end Steps

------------------------------------------------------------
-- Runs
------------------------------------------------------------

section Runs

variable {c : Crypto} {sort : ValueSort} {signer : Signer}

/- What a rescan reports, from the blocks and from before. -/
theorem rescan_scans
    {before after : Wallet}
    {blocks : List (Block × UInt32)}
    (hRescan : before.rescan c signer blocks = some after) :
    ∃ start : Wallet,
      start.utxos = [] ∧
        start.db.txs = before.db.txs ∧
        let scanned :=
          (placedTxs blocks).foldl
            (scanPlaced c (before.ownedLocks c signer)) start
        after.utxos = scanned.utxos ∧
          after.db.txs = scanned.db.txs ∧
          after.balance =
            scanned.utxos.foldl
              (addBalance before.params
                (match blocks.getLast? with
                | none => 0
                | some last => last.2))
              { confirmed := 0, pending := 0 } := by
  unfold rescan at hRescan
  split at hRescan
  · cases hRescan
  dsimp only at hRescan
  rw [foldl_scanBlock] at hRescan
  let start : Wallet :=
    { before with
      utxos := []
      tipHeight :=
        match blocks.getLast? with
        | none => 0
        | some last => last.2 }
  cases hRescan
  exact ⟨start, rfl, rfl, rfl, rfl, rfl⟩

/- By induction on the run, whose calls each file well. -/
theorem Reached.filed
    {wallet : Wallet}
    (hReached : Reached c sort signer wallet) :
    Filed wallet := by
  induction hReached with
  | opened hNone =>
      intro txid stored hStored
      rw [hNone] at hStored
      cases hStored
  | rescan _ hRescan ih =>
      rcases rescan_scans hRescan with
        ⟨start, -, hTxs, -, hAfter, -⟩
      exact (filed_scan (ih.of_txs hTxs) _).of_txs hAfter
  | send _ hSend ih =>
      rw [perform_eq] at hSend
      rcases Option.map_eq_some_iff.mp hSend with
        ⟨signed, -, hAfter⟩
      cases hAfter
      exact ih.storeTx _
  | addTransaction _ stored ih => exact ih.storeTx stored
  | rekeyed _ hSame ih => exact ih.of_txs hSame

theorem ownedLocks_eq
    {first second : Wallet}
    (hSeed : first.seed = second.seed)
    (hAccounts : first.db.accounts = second.db.accounts) :
    first.ownedLocks c signer =
      second.ownedLocks c signer := by
  unfold ownedLocks deriveLock
  rw [hSeed, hAccounts]

/- A record that the blocks do not replace stays. -/
theorem confirmedAt_rescan
    {before after : Wallet}
    {blocks : List (Block × UInt32)}
    (hRescan : before.rescan c signer blocks = some after)
    {txid : Hash256}
    (hTxid :
      txid ∉
        touchedTxids c (before.ownedLocks c signer) []
          (placedTxs blocks)) :
    after.confirmedAt txid = before.confirmedAt txid := by
  rcases rescan_scans hRescan with
    ⟨start, hNone, hTxs, -, hRecords, -⟩
  rw [← hNone] at hTxid
  unfold confirmedAt
  rw [hRecords, scan_untouched hTxid, hTxs]

/- One that they replace is replaced by the same in both. -/
theorem confirmedAt_rescan_eq
    {first second after later : Wallet}
    (hOwned :
      first.ownedLocks c signer =
        second.ownedLocks c signer)
    {blocks : List (Block × UInt32)}
    (hAfter : first.rescan c signer blocks = some after)
    (hLater : second.rescan c signer blocks = some later)
    {txid : Hash256}
    (hTxid :
      txid ∈
        touchedTxids c (first.ownedLocks c signer) []
          (placedTxs blocks)) :
    after.confirmedAt txid = later.confirmedAt txid := by
  rcases rescan_scans hAfter with
    ⟨start, hNone, -, -, hRecords, -⟩
  rcases rescan_scans hLater with
    ⟨begin, hEmpty, -, -, hKept, -⟩
  have hSame : start.utxos = begin.utxos :=
    hNone.trans hEmpty.symm
  rw [← hNone] at hTxid
  unfold confirmedAt
  rw [hRecords, hKept, ← hOwned,
    scan_touched hSame (Or.inr hTxid)]

/-
  The reports agree after a rescan exactly if the wallets
  agreed on every record that the blocks do not replace.
-/
theorem confirmedTxs_rescan_iff
    {first second after later : Wallet}
    (hOwned :
      first.ownedLocks c signer =
        second.ownedLocks c signer)
    {blocks : List (Block × UInt32)}
    (hFiled : Filed after)
    (hOther : Filed later)
    (hAfter : first.rescan c signer blocks = some after)
    (hLater : second.rescan c signer blocks = some later) :
    after.confirmedTxs = later.confirmedTxs ↔
      ∀ txid,
        txid ∉
            touchedTxids c (first.ownedLocks c signer) []
              (placedTxs blocks) →
          first.confirmedAt txid =
            second.confirmedAt txid := by
  rw [confirmedTxs_eq_iff hFiled hOther]
  refine forall_congr' fun txid => ?_
  by_cases hTouched :
      txid ∈
        touchedTxids c (first.ownedLocks c signer) []
          (placedTxs blocks)
  · have hSame :=
      confirmedAt_rescan_eq hOwned hAfter hLater hTouched
    exact iff_of_true hSame
      fun hAbsent => absurd hTouched hAbsent
  · rw [confirmedAt_rescan hAfter hTouched,
      confirmedAt_rescan hLater (by rwa [← hOwned])]
    exact (imp_iff_right hTouched).symm

/-
  Nothing is reported beyond a list that has what the blocks
  replace exactly if nothing beyond it was reported before.
-/
theorem confirmedWithin_rescan_iff
    {before after : Wallet}
    {blocks : List (Block × UInt32)}
    (hFiled : Filed after)
    (hRescan : before.rescan c signer blocks = some after)
    {txids : List Hash256}
    (hTouched :
      touchedTxids c (before.ownedLocks c signer) []
          (placedTxs blocks) ⊆
        txids) :
    after.ConfirmedWithin txids ↔
      ∀ txid, txid ∉ txids →
        before.confirmedAt txid = none := by
  constructor
  · intro hWithin txid hBeyond
    have hKept := confirmedAt_rescan hRescan
      fun hTxid => hBeyond (hTouched hTxid)
    rw [← hKept, Option.eq_none_iff_forall_ne_some]
    intro stored hStored
    have hTxid := txid_of_confirmedAt hFiled hStored
    rw [← hTxid] at hStored hBeyond
    exact hBeyond
      (hWithin stored ((mem_confirmedTxs hFiled).mpr hStored))
  · intro hNone stored hStored
    by_contra hBeyond
    have hKept := confirmedAt_rescan hRescan
      fun hTxid => hBeyond (hTouched hTxid)
    rw [hNone stored.txid hBeyond,
      (mem_confirmedTxs hFiled).mp hStored] at hKept
    cases hKept

/-
  After a rescan the coins and the balance are those of the
  blocks. The two wallets report the same as confirmed, and
  nothing that the blocks do not hold, exactly if they agreed
  on every record that the blocks do not replace and had none
  of a transaction that is not in the blocks. They report
  what the blocks record and nothing else exactly if neither
  had a record that the blocks do not replace.
-/
theorem rescan_agree_iff
    {first second after later : Wallet}
    (hFirst : Reached c sort signer first)
    (hSecond : Reached c sort signer second)
    (hSeed : first.seed = second.seed)
    (hAccounts : first.db.accounts = second.db.accounts)
    (hParams : first.params = second.params)
    {blocks : List (Block × UInt32)}
    (hAfter : first.rescan c signer blocks = some after)
    (hLater : second.rescan c signer blocks = some later) :
    let recorded :=
      touchedTxids c (first.ownedLocks c signer) []
        (placedTxs blocks)
    after.utxos = later.utxos ∧
      after.balance = later.balance ∧
      (after.confirmedTxs = later.confirmedTxs ∧
          after.ConfirmedWithin (placedTxids c blocks) ∧
          later.ConfirmedWithin (placedTxids c blocks) ↔
        (∀ txid, txid ∉ recorded →
            first.confirmedAt txid =
              second.confirmedAt txid) ∧
          ∀ txid, txid ∉ placedTxids c blocks →
            first.confirmedAt txid = none ∧
              second.confirmedAt txid = none) ∧
      (after.confirmedTxs = later.confirmedTxs ∧
          after.ConfirmedWithin recorded ∧
          later.ConfirmedWithin recorded ↔
        ∀ txid, txid ∉ recorded →
          first.confirmedAt txid = none ∧
            second.confirmedAt txid = none) := by
  intro recorded
  have hFiled := (hFirst.rescan hAfter).filed
  have hOther := (hSecond.rescan hLater).filed
  have hOwned := @ownedLocks_eq c signer _ _ hSeed hAccounts
  have hRecorded :
      touchedTxids c (second.ownedLocks c signer) []
          (placedTxs blocks) ⊆
        recorded := by
    rw [← hOwned]
    exact List.Subset.refl _
  have hPlaced : recorded ⊆ placedTxids c blocks :=
    touchedTxids_subset [] (placedTxs blocks)
  have hAgree := confirmedTxs_rescan_iff hOwned hFiled hOther
    hAfter hLater
  refine ⟨?_, ?_, ?_, ?_⟩
  · rcases rescan_scans hAfter with
      ⟨start, hNone, -, hCoins, -, -⟩
    rcases rescan_scans hLater with
      ⟨begin, hEmpty, -, hFound, -, -⟩
    rw [hCoins, hFound, ← hOwned]
    exact scan_utxos (hNone.trans hEmpty.symm) _
  · rcases rescan_scans hAfter with
      ⟨start, hNone, -, -, -, hBalance⟩
    rcases rescan_scans hLater with
      ⟨begin, hEmpty, -, -, -, hSum⟩
    rw [hBalance, hSum, ← hOwned, hParams,
      scan_utxos (hNone.trans hEmpty.symm)]
  · rw [hAgree,
      confirmedWithin_rescan_iff hFiled hAfter hPlaced,
      confirmedWithin_rescan_iff hOther hLater
        (List.Subset.trans hRecorded hPlaced),
      ← forall₂_and]
  · rw [hAgree,
      confirmedWithin_rescan_iff hFiled hAfter
        (List.Subset.refl _),
      confirmedWithin_rescan_iff hOther hLater
        hRecorded,
      ← forall₂_and, ← forall₂_and]
    refine forall₂_congr fun txid _ => ?_
    constructor
    · exact And.right
    · rintro ⟨hNone, hBare⟩
      exact ⟨hNone.trans hBare.symm, hNone, hBare⟩

end Runs

end Wallet

------------------------------------------------------------
-- Samples
------------------------------------------------------------

namespace Sample

open Wallet

/- A block that pays the wallet. -/
def payingBlocks : List (Block × UInt32) :=
  [(lineBlock [smallCoin] 1, 1)]

/- One that does not; its version tells its transaction from
   the other's. -/
def otherCoinbase : Transaction :=
  { lineCoinbase [burnt] 1 with version := 2 }

def otherBlock : Block :=
  { header :=
      { lineHeader [burnt] 1 with
        merkleRoot :=
          (computeMerkleRoot cheapCrypto
            [otherCoinbase.wtxid cheapCrypto]).getD
              Bytes32.zero }
    transactions := [otherCoinbase] }

def otherBlocks : List (Block × UInt32) :=
  [(otherBlock, 1)]

theorem touchedTxids_otherBlocks :
    touchedTxids cheapCrypto
        (newWallet.ownedLocks cheapCrypto openSigner) []
        (placedTxs otherBlocks) =
      [] := by
  decide +kernel

theorem touches_paying :
    (scanMoves cheapCrypto
        (newWallet.ownedLocks cheapCrypto openSigner) 1
        (lineCoinbase [smallCoin] 1) []).touches =
      true := by
  decide +kernel

theorem paying_not_placed :
    (lineCoinbase [smallCoin] 1).txid cheapCrypto ∉
      placedTxids cheapCrypto otherBlocks := by
  decide +kernel

theorem exists_rescan
    {wallet : Wallet}
    (hAccounts :
      wallet.db.accounts = newWallet.db.accounts)
    (blocks : List (Block × UInt32)) :
    ∃ after,
      wallet.rescan cheapCrypto openSigner blocks =
        some after := by
  refine ⟨_, if_neg ?_⟩
  rw [scanEnds, hAccounts]
  decide

/- The block that paid the wallet is gone, the record is not. -/
theorem abandoned_still_confirmed :
    ∃ first after later stored,
      newWallet.rescan cheapCrypto openSigner payingBlocks =
          some first ∧
        first.seed = newWallet.seed ∧
        first.db.accounts = newWallet.db.accounts ∧
        first.params = newWallet.params ∧
        first.rescan cheapCrypto openSigner otherBlocks =
          some after ∧
        newWallet.rescan cheapCrypto openSigner otherBlocks =
          some later ∧
        stored.txid =
          (lineCoinbase [smallCoin] 1).txid cheapCrypto ∧
        stored.txid ∉ placedTxids cheapCrypto otherBlocks ∧
        stored ∈ after.confirmedTxs ∧
        stored ∉ later.confirmedTxs := by
  rcases @exists_rescan newWallet rfl payingBlocks with
    ⟨first, hFirst⟩
  rcases rescan_eq_some hFirst with
    ⟨hSeed, hParams, hAccounts, -⟩
  rcases exists_rescan hAccounts otherBlocks with
    ⟨after, hAfter⟩
  rcases @exists_rescan newWallet rfl otherBlocks with
    ⟨later, hLater⟩
  have hOwned :
      first.ownedLocks cheapCrypto openSigner =
        newWallet.ownedLocks cheapCrypto openSigner :=
    ownedLocks_eq hSeed hAccounts
  rcases rescan_scans hFirst with
    ⟨start, hNone, -, -, hRecords, -⟩
  rcases rescan_scans hAfter with
    ⟨begin, hEmpty, hOld, -, hKept, -⟩
  rcases rescan_scans hLater with
    ⟨fresh, hBare, hNew, -, hLast, -⟩
  have hAbsent : ∀ txid,
      txid ∉
        touchedTxids cheapCrypto
          (newWallet.ownedLocks cheapCrypto openSigner) []
          (placedTxs otherBlocks) := by
    rw [touchedTxids_otherBlocks]
    exact fun _ => List.not_mem_nil
  let stored :=
    storedFor cheapCrypto 1 (lineCoinbase [smallCoin] 1)
      (scanMoves cheapCrypto
        (newWallet.ownedLocks cheapCrypto openSigner) 1
        (lineCoinbase [smallCoin] 1) [])
  have hPaid :
      first.db.txs
          ((lineCoinbase [smallCoin] 1).txid cheapCrypto) =
        some stored := by
    rw [hRecords]
    change (start.scanTransaction _ _ _ _).db.txs _ = _
    rw [scanTransaction_txs, hNone, if_pos touches_paying]
    exact Function.update_self ..
  have hHeight : (0 : Int32) ≤ stored.height := by
    change (0 : Int32) ≤ (1 : UInt32).toInt32
    decide
  refine ⟨first, after, later, stored, hFirst, hSeed,
    hAccounts, hParams, hAfter, hLater, rfl,
    paying_not_placed,
    ⟨hHeight, (lineCoinbase [smallCoin] 1).txid cheapCrypto,
      ?_⟩, ?_⟩
  · rw [hKept, hOwned, scan_untouched, hOld, hPaid]
    rw [hEmpty]
    exact hAbsent _
  · rintro ⟨-, txid, hStored⟩
    rw [hLast, scan_untouched, hNew] at hStored
    · cases hStored
    · rw [hBare]
      exact hAbsent txid

/- One wallet has seen the block before, the other has not. -/
theorem rescanned_again :
    ∃ first after later,
      newWallet.rescan cheapCrypto openSigner payingBlocks =
          some first ∧
        first.rescan cheapCrypto openSigner payingBlocks =
          some after ∧
        newWallet.rescan cheapCrypto openSigner
            payingBlocks =
          some later ∧
        after.utxos = later.utxos ∧
        after.balance = later.balance ∧
        after.confirmedTxs = later.confirmedTxs ∧
        after.ConfirmedWithin
          (placedTxids cheapCrypto payingBlocks) ∧
        later.ConfirmedWithin
          (placedTxids cheapCrypto payingBlocks) := by
  rcases @exists_rescan newWallet rfl payingBlocks with
    ⟨first, hFirst⟩
  rcases rescan_eq_some hFirst with
    ⟨hSeed, hParams, hAccounts, -⟩
  rcases exists_rescan hAccounts payingBlocks with
    ⟨after, hAfter⟩
  have hNew :
      Reached cheapCrypto valueSort openSigner newWallet :=
    .opened fun _ => rfl
  have hOwned :
      first.ownedLocks cheapCrypto openSigner =
        newWallet.ownedLocks cheapCrypto openSigner :=
    ownedLocks_eq hSeed hAccounts
  have hPlaced :=
    @touchedTxids_subset cheapCrypto
      (newWallet.ownedLocks cheapCrypto openSigner) []
      (placedTxs payingBlocks)
  rcases rescan_agree_iff (.rescan hNew hFirst) hNew hSeed
      hAccounts hParams hAfter hFirst with
    ⟨hUtxos, hBalance, hAgree, -⟩
  -- the new wallet has no record, the other the block's own
  have hKept : ∀ txid,
      txid ∉
          touchedTxids cheapCrypto
            (newWallet.ownedLocks cheapCrypto openSigner) []
            (placedTxs payingBlocks) →
        first.confirmedAt txid = none := by
    intro txid hAbsent
    rw [confirmedAt_rescan hFirst hAbsent]
    rfl
  rw [hOwned] at hAgree
  have hSame := hAgree.mpr
    ⟨hKept, fun txid hAbsent =>
      ⟨hKept txid fun hTxid => hAbsent (hPlaced hTxid), rfl⟩⟩
  exact ⟨first, after, first, hFirst, hAfter, hFirst,
    hUtxos, hBalance, hSame⟩

end Sample

end Amarian
