import Amarian.Primitives.Block
import Amarian.Util.Hex
import Amarian.Wallet.Address
import Amarian.Wallet.TxBuilder

/-
  The wallet: which coins of a chain it owns, and how it
  spends them.

  Nothing here depends on the file that a wallet is kept in,
  which is written after every change of the database.

  Key definitions include:
    * `Wallet`
    * `Wallet.deriveLock`
    * `Wallet.rescan`
    * `Wallet.sendToLock`
    * `Wallet.send`
-/

------------------------------------------------------------
-- State
------------------------------------------------------------

namespace Amarian

namespace Wallet

/- The texts are bytes: a backup can bring in any. -/
structure Account where
  label : ByteVec
  schemeName : ByteVec
  accountId : UInt32
  highestDerived : UInt32
  gapLimit : UInt64
deriving DecidableEq

/- A height of -1 stands for no block. -/
structure StoredTransaction where
  txid : Hash256
  height : Int32
  timestamp : Int64 := 0
  received : Int64
  sent : Int64
  fee : Int64
  rawTx : ByteVec := []
deriving DecidableEq

/-
  A database without a path is in memory only.  The metadata
  is in the order of its keys.
-/
structure WalletDb where
  accounts : List Account
  txs : Hash256 → Option StoredTransaction
  path : ByteVec := []
  encryptedSeed : ByteVec := []
  hasSeed : Bool := false
  birthHeight : UInt32 := 0
  metadata : List (ByteVec × ByteVec) := []

def WalletDb.storeTx
    (db : WalletDb)
    (stored : StoredTransaction) : WalletDb :=
  { db with
    txs := Function.update db.txs stored.txid (some stored) }

structure Balance where
  confirmed : Int64
  pending : Int64
deriving DecidableEq

end Wallet

structure Wallet where
  seed : Wallet.MasterSeed
  db : Wallet.WalletDb
  params : ChainParams
  balance : Wallet.Balance
  utxos : List Wallet.UtxoEntry
  tipHeight : UInt32

namespace Wallet

def defaultAccount : UInt32 := 0

def defaultScheme : String := "schnorr-secp256k1"

section Locks

variable (c : Crypto) (signer : Signer) (wallet : Wallet)

def keyLock
    (pair : KeyPair) : Lock :=
  { version := lockVersionConditionCommitment
    program :=
      (spendConditionCommitment c
        (singleKeyCondition schemeSchnorrSecp256k1
          pair.publicKey)).bytes }

/- The account is looked up by its place, not by its id. -/
def deriveLock
    (accountId index : UInt32) : Lock :=
  match wallet.db.accounts[accountId.toNat]? with
  | none => zeroLock
  | some _ =>
      match generateSchnorrKey signer
          (deriveSecp256k1Key c wallet.seed accountId
            index) with
      | none => zeroLock
      | some pair => keyLock c pair

structure OwnedLock where
  lock : Lock
  account : UInt32
  index : UInt32
deriving DecidableEq

def ownedLocks : List OwnedLock :=
  wallet.db.accounts.flatMap fun account =>
    (List.range (account.highestDerived.toNat + 1)).map
      fun index =>
        { lock :=
            wallet.deriveLock c signer account.accountId
              (UInt32.ofNat index)
          account := account.accountId
          index := UInt32.ofNat index }

end Locks

------------------------------------------------------------
-- Rescanning
------------------------------------------------------------

/- What the scan of one transaction adds up. -/
structure TxScan where
  utxos : List UtxoEntry
  spent : Int64
  received : Int64
  touches : Bool

section Scanning

variable (c : Crypto) (owned : List OwnedLock)
variable (height : UInt32)

/- Every coin under the outpoint goes. -/
def scanInput
    (scan : TxScan)
    (input : TxInput) : TxScan :=
  let gone :=
    scan.utxos.filter (·.outpoint = input.outpoint)
  { scan with
    utxos := scan.utxos.filter (·.outpoint ≠ input.outpoint)
    spent :=
      gone.foldl (fun spent entry => spent + entry.amount)
        scan.spent
    touches := scan.touches || !gone.isEmpty }

/- The first lock that matches names the key. -/
def scanOutput
    (tx : Transaction)
    (scan : TxScan)
    (found : TxOutput × Nat) : TxScan :=
  match owned.find? (·.lock = found.1.lock) with
  | none => scan
  | some key =>
      { scan with
        utxos :=
          scan.utxos ++
            [{ outpoint :=
                 { txid := tx.txid c
                   index := UInt32.ofNat found.2 }
               coin :=
                 { output := found.1
                   height := height
                   isCoinbase := tx.isCoinbase }
               confirmed := true
               accountId := key.account
               derivationIndex := key.index }]
        received := scan.received + found.1.amount
        touches := true }

/- The inputs of a transaction come before its outputs. -/
def scanMoves
    (tx : Transaction)
    (utxos : List UtxoEntry) : TxScan :=
  tx.outputs.zipIdx.foldl (scanOutput c owned height tx)
    (tx.inputs.foldl scanInput
      { utxos := utxos
        spent := 0
        received := 0
        touches := false })

def storedFor
    (tx : Transaction)
    (scan : TxScan) : StoredTransaction :=
  { txid := tx.txid c
    height := height.toInt32
    received := scan.received
    sent := scan.spent
    fee :=
      if scan.spent > scan.received && !tx.isCoinbase then
        scan.spent - scan.received
      else
        0 }

def scanTransaction
    (wallet : Wallet)
    (tx : Transaction) : Wallet :=
  let scan := scanMoves c owned height tx wallet.utxos
  { wallet with
    utxos := scan.utxos
    db :=
      if scan.touches then
        wallet.db.storeTx (storedFor c height tx scan)
      else
        wallet.db }

def scanBlock
    (wallet : Wallet)
    (scanned : Block × UInt32) : Wallet :=
  scanned.1.transactions.foldl
    (scanTransaction c owned scanned.2) wallet

end Scanning

/- Whether the wallet will spend a coin; the sum wraps. -/
def isMature
    (params : ChainParams)
    (tipHeight : UInt32)
    (coin : Coin) : Bool :=
  !coin.isCoinbase ||
    decide (tipHeight ≥ coin.height + params.coinbaseMaturity)

def addBalance
    (params : ChainParams)
    (tipHeight : UInt32)
    (balance : Balance)
    (entry : UtxoEntry) : Balance :=
  if isMature params tipHeight entry.coin then
    { balance with
      confirmed := balance.confirmed + entry.amount }
  else
    { balance with
      pending := balance.pending + entry.amount }

/-
  An account with every index derived has the loop over its
  indices come round and never end.
-/
def scanEnds
    (wallet : Wallet) : Bool :=
  wallet.db.accounts.all (·.highestDerived ≠ 0xFFFFFFFF)

def rescan
    (c : Crypto)
    (signer : Signer)
    (wallet : Wallet)
    (blocks : List (Block × UInt32)) : Option Wallet :=
  if !wallet.scanEnds then
    none
  else
    let tipHeight :=
      match blocks.getLast? with
      | none => 0
      | some last => last.2
    let scanned :=
      blocks.foldl
        (scanBlock c (wallet.ownedLocks c signer))
        { wallet with utxos := [], tipHeight := tipHeight }
    some
      { scanned with
        balance :=
          scanned.utxos.foldl
            (addBalance wallet.params tipHeight)
            { confirmed := 0, pending := 0 } }

------------------------------------------------------------
-- Sending
------------------------------------------------------------

structure SendResult where
  txid : Hash256
  fee : Int64
  rawTxHex : String
deriving DecidableEq

section Sending

variable (c : Crypto) (sort : ValueSort) (signer : Signer)
variable (wallet : Wallet)

def spendable : List UtxoEntry :=
  wallet.utxos.filter fun entry =>
    entry.confirmed &&
      isMature wallet.params wallet.tipHeight entry.coin

/- What a rate that is not positive stands for. -/
def effectiveRate
    (feeRate : Int64) : Int64 :=
  if feeRate ≤ 0 then defaultFeerate else feeRate

def builderFor
    (lock : Lock)
    (amount feeRate : Int64) : TxBuilder :=
  { seed := wallet.seed
    schemeName := defaultScheme
    account := defaultAccount
    recipients := [(lock, amount)]
    feeRate := effectiveRate feeRate
    chainId := wallet.params.chainId
    utxos := wallet.spendable }

/- The transaction that a send makes. -/
def payment
    (lock : Lock)
    (amount feeRate : Int64) : Option SignedTx := do
  let builder := wallet.builderFor lock amount feeRate
  let utx ← builder.build c sort
  builder.sign c signer utx

def resultOf
    (signed : SignedTx) : SendResult :=
  { txid := signed.txid
    fee := signed.fee
    rawTxHex := toHex signed.tx.serialize }

def sendToLock
    (lock : Lock)
    (amount feeRate : Int64) :
    Option (SendResult × Wallet) :=
  (wallet.payment c sort signer lock amount feeRate).map
    fun signed =>
      (resultOf signed,
        { wallet with
          db :=
            wallet.db.storeTx
              { txid := signed.txid
                height := -1
                received := 0
                sent := amount
                fee := signed.fee } })

def send
    (address : ByteVec)
    (amount feeRate : Int64) :
    Option (SendResult × Wallet) :=
  match addressToLock address (hrpFor wallet.params) with
  | none => none
  | some lock =>
      wallet.sendToLock c sort signer lock amount feeRate

end Sending

end Wallet

end Amarian
