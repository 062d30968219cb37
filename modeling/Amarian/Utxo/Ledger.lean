import Amarian.Utxo.Connect

/-
  Connecting and disconnecting on plain sets of coins.

  This is what the two operations are for: a block is an
  edit of the map from outpoints to coins, and its undo
  record is what reverses the edit.  The layered caches of
  `Amarian.Utxo.Connect` compute these functions.

  Key definitions include:
    * `Utxo.connectBlock`
    * `Utxo.disconnectBlock`

  Key theorems include:
    * `Utxo.disconnectBlock_connectBlock`
    * `connectBlock_tracks`
    * `disconnectBlock_tracks`
-/

------------------------------------------------------------
-- The Operations On Sets
------------------------------------------------------------

namespace Amarian

/- A value in a state is returned with the state as it is. -/
theorem stateT_pure_apply
    {σ α : Type}
    {m : Type → Type}
    [Monad m]
    (value : α)
    (state : σ) :
    (StateT.pure value : StateT σ m α) state =
      pure (value, state) :=
  rfl

namespace Utxo

section Operations

variable (c : Crypto) (params : ChainParams)

/- Takes the coins out in the order of the inputs. -/
def spendInputs : List TxInput → Utxo →
    Except ValidationError (List Coin × Utxo)
  | [], coins => .ok ([], coins)
  | input :: inputs, coins =>
      match coins.spend input.outpoint with
      | none => .error .txInputMissingOrSpent
      | some (coin, coins) => do
          let (spent, coins) ← spendInputs inputs coins
          .ok (coin :: spent, coins)

/- Puts the outputs in, the unspendable ones left out. -/
def addOutputs
    (txid : Hash256)
    (height : UInt32)
    (isCoinbase : Bool) :
    Nat → List TxOutput → Utxo →
      Except ValidationError Utxo
  | _, [], coins => .ok coins
  | index, output :: outputs, coins =>
      if isStored output then
        match coins.add (outPointFor txid index)
            { output, height, isCoinbase } with
        | none => .error .txCreatesExistingOutpoint
        | some coins =>
            addOutputs txid height isCoinbase (index + 1)
              outputs coins
      else
        addOutputs txid height isCoinbase (index + 1)
          outputs coins

/- A coinbase spends nothing. -/
def connectCoinbase
    (height : UInt32)
    (tx : Transaction)
    (coins : Utxo) : Except ValidationError Utxo := do
  rejectIf (!tx.isCoinbase) .blockMultipleCoinbases
  addOutputs (tx.txid c) height true 0 tx.outputs coins

/- Each transaction sees the ones before it. -/
def connectSpends
    (height : UInt32) :
    List Transaction → Int64 → Utxo →
      Except ValidationError (List TxUndo × Int64 × Utxo)
  | [], totalFees, coins => .ok ([], totalFees, coins)
  | tx :: txs, totalFees, coins => do
      rejectIf tx.isCoinbase .blockMultipleCoinbases
      let (spent, coins) ← spendInputs tx.inputs coins
      let fee ←
        checkTransactionInputs c tx spent height params
      let totalFees ← accumulateFee totalFees fee
      let coins ← addOutputs (tx.txid c) height false 0
        tx.outputs coins
      let (undo, totalFees, coins) ←
        connectSpends height txs totalFees coins
      .ok (⟨spent⟩ :: undo, totalFees, coins)

/- What a block does to the coins, or why it fails. -/
def connectBlock
    (block : Block)
    (coins : Utxo) :
    Except ValidationError (ConnectResult × Utxo) :=
  match block.transactions with
  | [] => .error .blockNoTransactions
  | first :: rest => do
      rejectIf (!first.isCoinbase) .blockFirstTxNotCoinbase
      let coins ← connectCoinbase c block.header.height first
        coins
      let (undo, totalFees, coins) ←
        connectSpends c params block.header.height rest 0
          coins
      checkCoinbaseAmount block totalFees params
      .ok (⟨⟨undo⟩, totalFees⟩, coins)

/- Each output has to be there, as it was made. -/
def removeOutputs
    (txid : Hash256)
    (height : UInt32)
    (isCoinbase : Bool) :
    Nat → List TxOutput → Utxo →
      Except DisconnectError Utxo
  | _, [], coins => .ok coins
  | index, output :: outputs, coins =>
      if isStored output then
        match coins.spend (outPointFor txid index) with
        | none => .error .createdCoinMissing
        | some (removed, coins) =>
            if removed = { output, height, isCoinbase } then
              removeOutputs txid height isCoinbase
                (index + 1) outputs coins
            else
              .error .createdCoinDoesNotMatch
      else
        removeOutputs txid height isCoinbase (index + 1)
          outputs coins

/- The last input comes back first. -/
def restoreInputs : List (TxInput × Coin) → Utxo →
    Except DisconnectError Utxo
  | [], coins => .ok coins
  | (input, coin) :: inputs, coins => do
      let coins ← restoreInputs inputs coins
      match coins.add input.outpoint coin with
      | none => .error .spentOutpointOccupied
      | some coins => .ok coins

/- The last transaction is taken back first. -/
def disconnectSpends
    (height : UInt32) :
    List (Transaction × TxUndo) → Utxo →
      Except DisconnectError Utxo
  | [], coins => .ok coins
  | (tx, undo) :: txs, coins => do
      let coins ← disconnectSpends height txs coins
      let coins ← removeOutputs (tx.txid c) height false 0
        tx.outputs coins
      if undo.spent.length = tx.inputs.length then
        restoreInputs (tx.inputs.zip undo.spent) coins
      else
        .error .undoDoesNotDescribeBlock

/- Undoes a block with what it left behind. -/
def disconnectBlock
    (block : Block)
    (undo : BlockUndo)
    (coins : Utxo) : Except DisconnectError Utxo :=
  match block.transactions with
  | [] => .error .undoDoesNotDescribeBlock
  | coinbase :: txs =>
      if undo.transactions.length = txs.length then do
        let coins ← disconnectSpends c block.header.height
          (txs.zip undo.transactions) coins
        removeOutputs (coinbase.txid c) block.header.height
          true 0 coinbase.outputs coins
      else
        .error .undoDoesNotDescribeBlock

end Operations

end Utxo

------------------------------------------------------------
-- The Caches Compute The Operations
------------------------------------------------------------

section Simulation

variable {σ δ : Type}
variable {latch : Latch σ δ} {d : δ}
variable {base : CoinsView σ} {coins : Utxo}

open CoinsCache Latch

theorem spendInputs_tracks
    (hBase : base.Answers latch d coins)
    (inputs : List TxInput)
    (batch : CoinsCache) :
    latch.TracksE d (Prod.map id (lookup coins))
      (spendInputs base inputs batch)
      (Utxo.spendInputs inputs (batch.lookup coins)) := by
  induction inputs generalizing batch with
  | nil => exact TracksE.pure rfl
  | cons input inputs ih =>
      refine (TracksE.lift
        (spendCoin_tracks hBase batch input.outpoint)).bind
        (c := fun found =>
          match found with
          | none => .error .txInputMissingOrSpent
          | some (coin, coins) => do
              let (spent, coins) ←
                Utxo.spendInputs inputs coins
              .ok (coin :: spent, coins))
        fun found => ?_
      cases found with
      | none => exact TracksE.throw _ _
      | some found =>
          rcases found with ⟨coin, batch⟩
          refine (ih batch).bind
            (c := fun rest =>
              .ok (coin :: rest.1, rest.2))
            fun rest => ?_
          exact TracksE.pure rfl

theorem addOutputs_tracks
    (hBase : base.Answers latch d coins)
    (txid : Hash256)
    (height : UInt32)
    (isCoinbase : Bool)
    (index : Nat)
    (outputs : List TxOutput)
    (batch : CoinsCache) :
    latch.TracksE d (lookup coins)
      (addOutputs base txid height isCoinbase index outputs
        batch)
      (Utxo.addOutputs txid height isCoinbase index outputs
        (batch.lookup coins)) := by
  induction outputs generalizing index batch with
  | nil => exact TracksE.pure rfl
  | cons output outputs ih =>
      unfold addOutputs Utxo.addOutputs
      split
      · refine (TracksE.lift
          (addCoin_tracks hBase batch _ _)).bind
          (c := fun added =>
            match added with
            | none => .error .txCreatesExistingOutpoint
            | some coins =>
                Utxo.addOutputs txid height isCoinbase
                  (index + 1) outputs coins)
          fun added => ?_
        cases added with
        | none => exact TracksE.throw _ _
        | some batch => exact ih (index + 1) batch
      · exact ih (index + 1) batch

theorem connectCoinbase_tracks
    (c : Crypto)
    (hBase : base.Answers latch d coins)
    (height : UInt32)
    (tx : Transaction)
    (batch : CoinsCache) :
    latch.TracksE d (lookup coins)
      (connectCoinbase c base height tx batch)
      (Utxo.connectCoinbase c height tx
        (batch.lookup coins)) :=
  (TracksE.liftExcept _).bind
    fun _ => addOutputs_tracks hBase _ _ _ _ _ batch

theorem connectSpends_tracks
    (c : Crypto)
    (params : ChainParams)
    (hBase : base.Answers latch d coins)
    (height : UInt32)
    (txs : List Transaction)
    (totalFees : Int64)
    (batch : CoinsCache) :
    latch.TracksE d
      (Prod.map id (Prod.map id (lookup coins)))
      (connectSpends c params base height txs totalFees
        batch)
      (Utxo.connectSpends c params height txs totalFees
        (batch.lookup coins)) := by
  induction txs generalizing totalFees batch with
  | nil => exact TracksE.pure rfl
  | cons tx txs ih =>
      refine (TracksE.liftExcept _).bind fun _ => ?_
      refine (spendInputs_tracks hBase tx.inputs batch).bind
        fun spent => ?_
      refine (TracksE.liftExcept _).bind fun fee => ?_
      refine (TracksE.liftExcept _).bind fun totalFees => ?_
      refine (addOutputs_tracks hBase _ _ _ _ _ _).bind
        fun batch => ?_
      refine (ih totalFees batch).bind fun rest => ?_
      exact TracksE.pure rfl

theorem connectBatch_tracks
    (c : Crypto)
    (params : ChainParams)
    (hBase : base.Answers latch d coins)
    (block : Block)
    (cache : CoinsCache) :
    latch.TracksE d
      (Prod.map id (lookup (cache.lookup coins)))
      (connectBatch c params base block cache)
      (Utxo.connectBlock c params block
        (cache.lookup coins)) := by
  have hCache := onto_answers hBase cache
  unfold connectBatch Utxo.connectBlock
  cases block.transactions with
  | nil => exact TracksE.throw _ _
  | cons first rest =>
      refine (TracksE.liftExcept _).bind fun _ => ?_
      have hFirst := connectCoinbase_tracks c hCache
        block.header.height first CoinsCache.empty
      rw [lookup_empty] at hFirst
      refine hFirst.bind fun batch => ?_
      refine (connectSpends_tracks c params hCache _ _ _
        batch).bind fun spends => ?_
      refine (TracksE.liftExcept _).bind fun _ => ?_
      exact TracksE.pure rfl

/- What the caller of a batch sees of its outcome. -/
def afterBatch
    {ε α β : Type}
    (before : β)
    (outcome : Except ε (α × β)) : Except ε α × β :=
  match outcome with
  | .error error => (.error error, before)
  | .ok (result, after) => (.ok result, after)

/- The outcome can be read off what the caller sees. -/
theorem eq_map_of_afterBatch
    {ε α β : Type}
    {before later : β}
    {seen : Except ε α}
    {outcome : Except ε (α × β)}
    (hSeen : (seen, later) = afterBatch before outcome) :
    outcome = seen.map fun result => (result, later) := by
  rcases outcome with error | ⟨done, after⟩
  · cases hSeen
    rfl
  · cases hSeen
    rfl

theorem afterBatch_eq_error
    {ε α β : Type}
    {before seen : β}
    {outcome : Except ε (α × β)}
    {error : ε} :
    (.error error, seen) = afterBatch before outcome ↔
      outcome = .error error ∧ seen = before := by
  rcases outcome with error | ⟨done, after⟩
  · simp [afterBatch, Prod.ext_iff, eq_comm]
  · simp [afterBatch]

theorem connectBlock_tracks
    (c : Crypto)
    (params : ChainParams)
    (hBase : base.Answers latch d coins)
    (block : Block)
    (cache : CoinsCache) :
    latch.Tracks d (Prod.map id (lookup coins))
      (connectBlock c params base block cache)
      (afterBatch (cache.lookup coins)
        (Utxo.connectBlock c params block
          (cache.lookup coins))) := by
  refine Tracks.bind
    (connectBatch_tracks c params hBase block cache)
    fun outcome => ?_
  cases outcome with
  | error error => exact Tracks.pure rfl
  | ok connected =>
      rcases connected with ⟨result, batch⟩
      exact (flush_tracks hBase batch cache).bind
        (c := fun after => (Except.ok result, after))
        fun _ => Tracks.pure rfl

theorem removeOutputs_tracks
    (hBase : base.Answers latch d coins)
    (txid : Hash256)
    (height : UInt32)
    (isCoinbase : Bool)
    (index : Nat)
    (outputs : List TxOutput)
    (batch : CoinsCache) :
    latch.TracksE d (lookup coins)
      (removeOutputs base txid height isCoinbase index
        outputs batch)
      (Utxo.removeOutputs txid height isCoinbase index
        outputs (batch.lookup coins)) := by
  induction outputs generalizing index batch with
  | nil => exact TracksE.pure rfl
  | cons output outputs ih =>
      unfold removeOutputs Utxo.removeOutputs
      split
      · refine (TracksE.lift
          (spendCoin_tracks hBase batch _)).bind
          (c := fun found =>
            match found with
            | none => .error .createdCoinMissing
            | some (removed, coins) =>
                if removed =
                    { output, height, isCoinbase } then
                  Utxo.removeOutputs txid height isCoinbase
                    (index + 1) outputs coins
                else
                  .error .createdCoinDoesNotMatch)
          fun found => ?_
        cases found with
        | none => exact TracksE.throw _ _
        | some found =>
            rcases found with ⟨removed, batch⟩
            change latch.TracksE d _
              (if removed = _ then _ else _)
              (if removed = _ then _ else _)
            split
            · exact ih (index + 1) batch
            · exact TracksE.throw _ _
      · exact ih (index + 1) batch

theorem restoreInputs_tracks
    (hBase : base.Answers latch d coins)
    (inputs : List (TxInput × Coin))
    (batch : CoinsCache) :
    latch.TracksE d (lookup coins)
      (restoreInputs base inputs batch)
      (Utxo.restoreInputs inputs (batch.lookup coins)) := by
  induction inputs generalizing batch with
  | nil => exact TracksE.pure rfl
  | cons input inputs ih =>
      refine (ih batch).bind fun batch => ?_
      refine (TracksE.lift
        (addCoin_tracks hBase batch _ _)).bind
        (c := fun added =>
          match added with
          | none =>
              .error DisconnectError.spentOutpointOccupied
          | some coins => .ok coins)
        fun added => ?_
      cases added with
      | none => exact TracksE.throw _ _
      | some batch => exact TracksE.pure rfl

theorem disconnectSpends_tracks
    (c : Crypto)
    (hBase : base.Answers latch d coins)
    (height : UInt32)
    (txs : List (Transaction × TxUndo))
    (batch : CoinsCache) :
    latch.TracksE d (lookup coins)
      (disconnectSpends c base height txs batch)
      (Utxo.disconnectSpends c height txs
        (batch.lookup coins)) := by
  induction txs generalizing batch with
  | nil => exact TracksE.pure rfl
  | cons tx txs ih =>
      refine (ih batch).bind fun batch => ?_
      refine (removeOutputs_tracks hBase _ _ _ _ _ _).bind
        fun batch => ?_
      split
      · exact restoreInputs_tracks hBase _ batch
      · exact TracksE.throw _ _

theorem disconnectBatch_tracks
    (c : Crypto)
    (hBase : base.Answers latch d coins)
    (block : Block)
    (undo : BlockUndo)
    (cache : CoinsCache) :
    latch.TracksE d (lookup (cache.lookup coins))
      (disconnectBatch c base block undo cache)
      (Utxo.disconnectBlock c block undo
        (cache.lookup coins)) := by
  have hCache := onto_answers hBase cache
  unfold disconnectBatch Utxo.disconnectBlock
  cases block.transactions with
  | nil => exact TracksE.throw _ _
  | cons coinbase txs =>
      dsimp only
      split
      · have hSpends := disconnectSpends_tracks c hCache
          block.header.height (txs.zip undo.transactions)
          CoinsCache.empty
        rw [lookup_empty] at hSpends
        exact hSpends.bind fun batch =>
          removeOutputs_tracks hCache _ _ _ _ _ batch
      · exact TracksE.throw _ _

theorem disconnectBlock_tracks
    (c : Crypto)
    (hBase : base.Answers latch d coins)
    (block : Block)
    (undo : BlockUndo)
    (cache : CoinsCache) :
    latch.Tracks d (Prod.map id (lookup coins))
      (disconnectBlock c base block undo cache)
      (afterBatch (cache.lookup coins)
        ((Utxo.disconnectBlock c block undo
          (cache.lookup coins)).map (Prod.mk ()))) := by
  refine Tracks.bind
    (c := fun outcome => afterBatch (cache.lookup coins)
      (outcome.map (Prod.mk ())))
    (disconnectBatch_tracks c hBase block undo cache)
    fun outcome => ?_
  cases outcome with
  | error error => exact Tracks.pure rfl
  | ok batch =>
      exact (flush_tracks hBase batch cache).bind
        (c := fun after => (Except.ok (), after))
        fun _ => Tracks.pure rfl

end Simulation

end Amarian
