import Amarian.Consensus.Validation
import Amarian.Utxo.Coins

/-
  Connecting a block to the set of unspent coins, and
  disconnecting it again with its undo record.

  Both work on a batch over the caller's set and flush it
  only when the whole block went through.

  Key definitions include:
    * `BlockUndo`
    * `ConnectResult`
    * `connectBlock`
    * `disconnectBlock`
-/

------------------------------------------------------------
-- Undo Records
------------------------------------------------------------

namespace Amarian

/- The coins a transaction spent, in the order of its inputs. -/
structure TxUndo where
  spent : List Coin
deriving DecidableEq

/- One entry for every transaction after the coinbase. -/
structure BlockUndo where
  transactions : List TxUndo
deriving DecidableEq

/- What a block that connects leaves behind. -/
structure ConnectResult where
  undo : BlockUndo
  totalFees : Int64
deriving DecidableEq

/- Why a block cannot be taken back. -/
inductive DisconnectError where
  | undoDoesNotDescribeBlock
  | createdCoinMissing
  | createdCoinDoesNotMatch
  | spentOutpointOccupied
deriving DecidableEq

/- The place is cut to thirty-two bits. -/
def outPointFor
    (txid : Hash256)
    (index : Nat) : OutPoint :=
  { txid := txid, index := UInt32.ofNat index }

/- A lock nothing can open is not worth remembering. -/
def isStored
    (output : TxOutput) : Bool :=
  !output.lock.isUnspendable

------------------------------------------------------------
-- Connect
------------------------------------------------------------

section Connect

variable {σ : Type}
variable (c : Crypto) (params : ChainParams)
variable (base : CoinsView σ)

/- A rejection leaves the state of the reads behind. -/
abbrev Connecting
    (σ : Type) : Type → Type :=
  ExceptT ValidationError (StateM σ)

/-
  Every coin is removed as it is found, so a second spend of
  it in the same block finds nothing.
-/
def spendInputs : List TxInput → CoinsCache →
    Connecting σ (List Coin × CoinsCache)
  | [], batch => pure ([], batch)
  | input :: inputs, batch => do
      match ← ExceptT.lift
          (batch.spendCoin base input.outpoint) with
      | none => throw .txInputMissingOrSpent
      | some (coin, batch) =>
          let (coins, batch) ← spendInputs inputs batch
          pure (coin :: coins, batch)

/- Unspendable outputs are passed over. -/
def addOutputs
    (txid : Hash256)
    (height : UInt32)
    (isCoinbase : Bool) :
    Nat → List TxOutput → CoinsCache →
      Connecting σ CoinsCache
  | _, [], batch => pure batch
  | index, output :: outputs, batch =>
      if isStored output then do
        match ← ExceptT.lift
            (batch.addCoin base (outPointFor txid index)
              { output, height, isCoinbase }) with
        | none => throw .txCreatesExistingOutpoint
        | some batch =>
            addOutputs txid height isCoinbase (index + 1)
              outputs batch
      else
        addOutputs txid height isCoinbase (index + 1)
          outputs batch

/- `TryAccumulate` followed by `IsValidAmount`. -/
def accumulateFee
    (totalFees fee : Int64) :
    Except ValidationError Int64 :=
  match checkedAdd totalFees fee with
  | none => .error .blockFeesOutOfRange
  | some total =>
      if isValidAmount total then
        .ok total
      else
        .error .blockFeesOutOfRange

/- The first transaction of the block is its coinbase. -/
def connectCoinbase
    (height : UInt32)
    (tx : Transaction)
    (batch : CoinsCache) : Connecting σ CoinsCache := do
  liftExcept
    (rejectIf (!tx.isCoinbase) .blockMultipleCoinbases)
  addOutputs base (tx.txid c) height true 0 tx.outputs batch

/- The transactions after the coinbase. -/
def connectSpends
    (height : UInt32) :
    List Transaction → Int64 → CoinsCache →
      Connecting σ (List TxUndo × Int64 × CoinsCache)
  | [], totalFees, batch => pure ([], totalFees, batch)
  | tx :: txs, totalFees, batch => do
      liftExcept
        (rejectIf tx.isCoinbase .blockMultipleCoinbases)
      let (spent, batch) ← spendInputs base tx.inputs batch
      let fee ← liftExcept
        (checkTransactionInputs c tx spent height params)
      let totalFees ← liftExcept
        (accumulateFee totalFees fee)
      let batch ← addOutputs base (tx.txid c) height false 0
        tx.outputs batch
      let (undo, totalFees, batch) ←
        connectSpends height txs totalFees batch
      pure (⟨spent⟩ :: undo, totalFees, batch)

/- Everything but the flush, into a batch over `coins`. -/
def connectBatch
    (block : Block)
    (coins : CoinsCache) :
    Connecting σ (ConnectResult × CoinsCache) :=
  match block.transactions with
  | [] => throw .blockNoTransactions
  | first :: rest => do
      liftExcept
        (rejectIf (!first.isCoinbase)
          .blockFirstTxNotCoinbase)
      let batch ← connectCoinbase c (coins.onto base)
        block.header.height first .empty
      let (undo, totalFees, batch) ←
        connectSpends c params (coins.onto base)
          block.header.height rest 0 batch
      liftExcept (checkCoinbaseAmount block totalFees params)
      pure (⟨⟨undo⟩, totalFees⟩, batch)

/- All changes at once, or none. -/
def connectBlock
    (block : Block)
    (coins : CoinsCache) :
    StateM σ
      (Except ValidationError ConnectResult × CoinsCache) :=
  do
    match ← (connectBatch c params base block coins).run with
    | .error error => pure (.error error, coins)
    | .ok (result, batch) =>
        let coins ← batch.flush base coins
        pure (.ok result, coins)

end Connect

------------------------------------------------------------
-- Disconnect
------------------------------------------------------------

section Disconnect

variable {σ : Type}
variable (c : Crypto) (base : CoinsView σ)

/- A step back that may fail. -/
abbrev Disconnecting
    (σ : Type) : Type → Type :=
  ExceptT DisconnectError (StateM σ)

/- Removes what a transaction created, checking each coin. -/
def removeOutputs
    (txid : Hash256)
    (height : UInt32)
    (isCoinbase : Bool) :
    Nat → List TxOutput → CoinsCache →
      Disconnecting σ CoinsCache
  | _, [], batch => pure batch
  | index, output :: outputs, batch =>
      if isStored output then do
        match ← ExceptT.lift
            (batch.spendCoin base
              (outPointFor txid index)) with
        | none => throw .createdCoinMissing
        | some (removed, batch) =>
            if removed = { output, height, isCoinbase } then
              removeOutputs txid height isCoinbase
                (index + 1) outputs batch
            else
              throw .createdCoinDoesNotMatch
      else
        removeOutputs txid height isCoinbase (index + 1)
          outputs batch

/- Gives back what a transaction spent, last input first. -/
def restoreInputs : List (TxInput × Coin) → CoinsCache →
    Disconnecting σ CoinsCache
  | [], batch => pure batch
  | (input, coin) :: inputs, batch => do
      let batch ← restoreInputs inputs batch
      match ← ExceptT.lift
          (batch.addCoin base input.outpoint coin) with
      | none => throw .spentOutpointOccupied
      | some batch => pure batch

/- The transactions after the coinbase, last one first. -/
def disconnectSpends
    (height : UInt32) :
    List (Transaction × TxUndo) → CoinsCache →
      Disconnecting σ CoinsCache
  | [], batch => pure batch
  | (tx, undo) :: txs, batch => do
      let batch ← disconnectSpends height txs batch
      let batch ← removeOutputs base (tx.txid c) height false
        0 tx.outputs batch
      if undo.spent.length = tx.inputs.length then
        restoreInputs base (tx.inputs.zip undo.spent) batch
      else
        throw .undoDoesNotDescribeBlock

/- Everything but the flush, into a batch over `coins`. -/
def disconnectBatch
    (block : Block)
    (undo : BlockUndo)
    (coins : CoinsCache) : Disconnecting σ CoinsCache :=
  match block.transactions with
  | [] => throw .undoDoesNotDescribeBlock
  | coinbase :: txs =>
      if undo.transactions.length = txs.length then do
        let batch ← disconnectSpends c (coins.onto base)
          block.header.height (txs.zip undo.transactions)
          .empty
        removeOutputs (coins.onto base) (coinbase.txid c)
          block.header.height true 0 coinbase.outputs batch
      else
        throw .undoDoesNotDescribeBlock

/- All of the block, or nothing. -/
def disconnectBlock
    (block : Block)
    (undo : BlockUndo)
    (coins : CoinsCache) :
    StateM σ (Except DisconnectError Unit × CoinsCache) := do
  match ← (disconnectBatch c base block undo coins).run with
  | .error error => pure (.error error, coins)
  | .ok batch =>
      let coins ← batch.flush base coins
      pure (.ok (), coins)

end Disconnect

end Amarian
