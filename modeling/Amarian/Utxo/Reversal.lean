import Amarian.Crypto.Sha256
import Amarian.Lib.Except
import Amarian.Utxo.Ledger

/-
  Disconnecting a block undoes connecting it.

  Key theorems include:
    * `Utxo.restoreInputs_spendInputs`
    * `Utxo.removeOutputs_addOutputs`
    * `Utxo.disconnectBlock_connectBlock`
    * `disconnect_undoes_connect`
-/

------------------------------------------------------------
-- Single Coins
------------------------------------------------------------

namespace Amarian

namespace Utxo

theorem spend_eq_some
    {coins after : Utxo}
    {outpoint : OutPoint}
    {coin : Coin} :
    coins.spend outpoint = some (coin, after) ↔
      coins outpoint = some coin ∧
        after = Function.update coins outpoint none := by
  cases hCoin : coins outpoint with
  | none => simp [spend, hCoin]
  | some found =>
      simp [spend, hCoin, Prod.ext_iff, eq_comm]

theorem add_eq_some
    {coins after : Utxo}
    {outpoint : OutPoint}
    {coin : Coin} :
    coins.add outpoint coin = some after ↔
      coins outpoint = none ∧
        after =
          Function.update coins outpoint (some coin) := by
  cases hCoin : coins outpoint with
  | none => simp [add, hCoin, eq_comm]
  | some found => simp [add, hCoin]

------------------------------------------------------------
-- Inputs
------------------------------------------------------------

theorem spendInputs_cons
    {input : TxInput}
    {inputs : List TxInput}
    {coins after : Utxo}
    {spent : List Coin} :
    spendInputs (input :: inputs) coins =
        .ok (spent, after) ↔
      ∃ coin rest,
        spent = coin :: rest ∧
          coins input.outpoint = some coin ∧
          spendInputs inputs
              (Function.update coins input.outpoint none) =
            .ok (rest, after) := by
  rw [spendInputs, spend]
  cases hCoin : coins input.outpoint with
  | none => simp
  | some coin =>
      simp only [Option.map_some, except_bind_eq_ok]
      constructor
      · rintro ⟨⟨rest, last⟩, hRest, hDone⟩
        cases hDone
        exact ⟨coin, rest, rfl, rfl, hRest⟩
      · rintro ⟨_, rest, rfl, hSame, hRest⟩
        cases hSame
        exact ⟨(rest, after), hRest, rfl⟩

theorem spendInputs_length
    {inputs : List TxInput}
    {coins after : Utxo}
    {spent : List Coin}
    (hSpent :
      spendInputs inputs coins = .ok (spent, after)) :
    spent.length = inputs.length := by
  induction inputs generalizing coins spent with
  | nil =>
      cases hSpent
      rfl
  | cons input inputs ih =>
      rcases spendInputs_cons.mp hSpent with
        ⟨coin, rest, rfl, -, hRest⟩
      simp [ih hRest]

theorem restoreInputs_spendInputs
    {inputs : List TxInput}
    {coins after : Utxo}
    {spent : List Coin}
    (hSpent :
      spendInputs inputs coins = .ok (spent, after)) :
    restoreInputs (inputs.zip spent) after = .ok coins := by
  induction inputs generalizing coins spent with
  | nil =>
      cases hSpent
      rfl
  | cons input inputs ih =>
      rcases spendInputs_cons.mp hSpent with
        ⟨coin, rest, rfl, hCoin, hRest⟩
      have hRestored := ih hRest
      have hBack :
          Utxo.add
              (Function.update coins input.outpoint none)
              input.outpoint coin =
            some coins := by
        refine add_eq_some.mpr ⟨by simp, ?_⟩
        rw [Function.update_idem, ← hCoin,
          Function.update_eq_self]
      rw [List.zip_cons_cons]
      unfold restoreInputs
      rw [hRestored]
      simp only [bind, Except.bind, hBack]

------------------------------------------------------------
-- Outputs
------------------------------------------------------------

section Outputs

variable {txid : Hash256} {height : UInt32}
variable {isCoinbase : Bool}

/-
  An occupied outpoint is not among those added, so it can
  be taken out before the additions as well as after them.
-/
theorem addOutputs_frame
    {index : Nat}
    {outputs : List TxOutput}
    {coins after : Utxo}
    {outpoint : OutPoint}
    {coin : Coin}
    (hOccupied : coins outpoint = some coin)
    (hAdded :
      addOutputs txid height isCoinbase index outputs coins =
        .ok after) :
    after outpoint = some coin ∧
      addOutputs txid height isCoinbase index outputs
          (Function.update coins outpoint none) =
        .ok (Function.update after outpoint none) := by
  induction outputs generalizing index coins with
  | nil =>
      cases hAdded
      exact ⟨hOccupied, rfl⟩
  | cons output outputs ih =>
      unfold addOutputs at hAdded ⊢
      split at hAdded
      case isFalse hSkipped =>
        rw [if_neg hSkipped]
        exact ih hOccupied hAdded
      case isTrue hStored =>
        rw [if_pos hStored]
        cases hNew : coins.add (outPointFor txid index)
            { output, height, isCoinbase } with
        | none => simp [hNew] at hAdded
        | some next =>
            rw [hNew] at hAdded
            rcases add_eq_some.mp hNew with ⟨hFree, rfl⟩
            have hNe :
                outPointFor txid index ≠ outpoint := by
              intro hSame
              rw [hSame, hOccupied] at hFree
              cases hFree
            rcases ih
              (by rw [Function.update_of_ne hNe.symm,
                hOccupied]) hAdded with
              ⟨hKept, hRest⟩
            have hNewToo :
                Utxo.add
                    (Function.update coins outpoint none)
                    (outPointFor txid index)
                    { output, height, isCoinbase } =
                  some (Function.update
                    (Function.update coins
                      (outPointFor txid index)
                      (some { output, height,
                              isCoinbase }))
                    outpoint none) := by
              refine add_eq_some.mpr ⟨?_, ?_⟩
              · rw [Function.update_of_ne hNe, hFree]
              · exact Function.update_comm hNe _ _ _
            rw [hNewToo]
            exact ⟨hKept, hRest⟩

theorem removeOutputs_addOutputs
    {index : Nat}
    {outputs : List TxOutput}
    {coins after : Utxo}
    (hAdded :
      addOutputs txid height isCoinbase index outputs coins =
        .ok after) :
    removeOutputs txid height isCoinbase index outputs
        after =
      .ok coins := by
  induction outputs generalizing index coins after with
  | nil =>
      cases hAdded
      rfl
  | cons output outputs ih =>
      unfold addOutputs at hAdded
      unfold removeOutputs
      split at hAdded
      case isFalse hSkipped =>
        rw [if_neg hSkipped]
        exact ih hAdded
      case isTrue hStored =>
        rw [if_pos hStored]
        cases hNew : coins.add (outPointFor txid index)
            { output, height, isCoinbase } with
        | none => simp [hNew] at hAdded
        | some next =>
            rw [hNew] at hAdded
            rcases add_eq_some.mp hNew with ⟨hFree, rfl⟩
            rcases addOutputs_frame
              (by rw [Function.update_self]) hAdded with
              ⟨hThere, hRest⟩
            rw [Function.update_idem, ← hFree,
              Function.update_eq_self] at hRest
            rw [spend_eq_some.mpr ⟨hThere, rfl⟩]
            dsimp only
            rw [if_pos rfl, ← hFree]
            exact ih hRest

end Outputs

------------------------------------------------------------
-- Blocks
------------------------------------------------------------

section Blocks

variable {c : Crypto} {params : ChainParams}

/-
  What a connected transaction went through, in the order
  of the steps.
-/
theorem connectSpends_cons
    {height : UInt32}
    {tx : Transaction}
    {txs : List Transaction}
    {fees totalFees : Int64}
    {coins after : Utxo}
    {undo : List TxUndo} :
    connectSpends c params height (tx :: txs) fees coins =
        .ok (undo, totalFees, after) ↔
      ∃ spent unspent fee feesNow created rest,
        undo = ⟨spent⟩ :: rest ∧
          tx.isCoinbase = false ∧
          spendInputs tx.inputs coins =
            .ok (spent, unspent) ∧
          checkTransactionInputs c tx spent height params =
            .ok fee ∧
          accumulateFee fees fee = .ok feesNow ∧
          addOutputs (tx.txid c) height false 0 tx.outputs
              unspent =
            .ok created ∧
          connectSpends c params height txs feesNow
              created =
            .ok (rest, totalFees, after) := by
  rw [connectSpends]
  simp only [except_bind_eq_ok, rejectIf_eq_ok]
  constructor
  · rintro ⟨-, hPlain, ⟨spent, unspent⟩, hSpent, fee, hFee,
      feesNow, hFees, created, hCreated,
      ⟨rest, total, last⟩, hRest, hDone⟩
    cases hDone
    exact ⟨spent, unspent, fee, feesNow, created, rest, rfl,
      hPlain, hSpent, hFee, hFees, hCreated, hRest⟩
  · rintro ⟨spent, unspent, fee, feesNow, created, rest, rfl,
      hPlain, hSpent, hFee, hFees, hCreated, hRest⟩
    exact ⟨(), hPlain, (spent, unspent), hSpent, fee, hFee,
      feesNow, hFees, created, hCreated,
      (rest, totalFees, after), hRest, rfl⟩

theorem connectBlock_eq_ok
    {block : Block}
    {coins after : Utxo}
    {result : ConnectResult} :
    connectBlock c params block coins =
        .ok (result, after) ↔
      ∃ first rest created,
        block.transactions = first :: rest ∧
          first.isCoinbase = true ∧
          addOutputs (first.txid c) block.header.height true
              0 first.outputs coins =
            .ok created ∧
          connectSpends c params block.header.height rest 0
              created =
            .ok (result.undo.transactions, result.totalFees,
              after) ∧
          checkCoinbaseAmount block result.totalFees params =
            .ok () := by
  unfold connectBlock connectCoinbase
  cases block.transactions with
  | nil => simp
  | cons first rest =>
      simp only [except_bind_eq_ok, rejectIf_eq_ok,
        Bool.not_eq_false']
      constructor
      · rintro ⟨-, hFirst, created, ⟨-, -, hCreated⟩,
          ⟨undo, total, last⟩, hRest, _, hAmount, hDone⟩
        cases hDone
        exact ⟨first, rest, created, rfl, hFirst, hCreated,
          hRest, hAmount⟩
      · rintro ⟨_, _, created, hSame, hFirst, hCreated,
          hRest, hAmount⟩
        cases hSame
        exact ⟨(), hFirst, created,
          ⟨(), hFirst, hCreated⟩, _, hRest, (), hAmount,
          rfl⟩

theorem connectSpends_length
    {height : UInt32}
    {txs : List Transaction}
    {fees totalFees : Int64}
    {coins after : Utxo}
    {undo : List TxUndo}
    (hConnected :
      connectSpends c params height txs fees coins =
        .ok (undo, totalFees, after)) :
    undo.length = txs.length := by
  induction txs generalizing fees coins undo with
  | nil =>
      cases hConnected
      rfl
  | cons tx txs ih =>
      rcases connectSpends_cons.mp hConnected with
        ⟨_, _, _, _, _, rest, rfl, -, -, -, -, -, hRest⟩
      simp [ih hRest]

theorem disconnectSpends_connectSpends
    {height : UInt32}
    {txs : List Transaction}
    {fees totalFees : Int64}
    {coins after : Utxo}
    {undo : List TxUndo}
    (hConnected :
      connectSpends c params height txs fees coins =
        .ok (undo, totalFees, after)) :
    disconnectSpends c height (txs.zip undo) after =
      .ok coins := by
  induction txs generalizing fees coins undo with
  | nil =>
      cases hConnected
      rfl
  | cons tx txs ih =>
      rcases connectSpends_cons.mp hConnected with
        ⟨spent, unspent, _, _, created, rest, rfl, -, hSpent, -,
          -, hCreated, hRest⟩
      rw [List.zip_cons_cons, disconnectSpends, ih hRest]
      simp only [bind, Except.bind]
      rw [removeOutputs_addOutputs hCreated]
      dsimp only
      rw [if_pos (spendInputs_length hSpent)]
      exact restoreInputs_spendInputs hSpent

theorem disconnectBlock_connectBlock
    {block : Block}
    {coins after : Utxo}
    {result : ConnectResult}
    (hConnected :
      connectBlock c params block coins =
        .ok (result, after)) :
    disconnectBlock c block result.undo after =
      .ok coins := by
  rcases connectBlock_eq_ok.mp hConnected with
    ⟨first, rest, created, hTxs, -, hCreated, hRest, -⟩
  unfold disconnectBlock
  rw [hTxs]
  dsimp only
  rw [if_pos (connectSpends_length hRest),
    disconnectSpends_connectSpends hRest]
  exact removeOutputs_addOutputs hCreated

end Blocks

end Utxo

------------------------------------------------------------
-- Caches Over A Set
------------------------------------------------------------

section Caches

variable (c : Crypto) (params : ChainParams)

/- The lookup of every outpoint in a cache over `set`. -/
def CoinsCache.lookups
    (set : Utxo)
    (cache : CoinsCache)
    (outpoint : OutPoint) : Option Coin :=
  (cache.getCoin (.ofSet set) outpoint ()).1

theorem CoinsCache.lookups_eq
    (set : Utxo)
    (cache : CoinsCache) :
    cache.lookups set = cache.lookup set := by
  funext outpoint
  have hAnswers := CoinsCache.onto_answers
    (CoinsView.ofSet_answers set) cache outpoint
  exact (hAnswers.1 () rfl).2 rfl |>.2

/- Connects the blocks one after another. -/
def connectBlocks
    {σ : Type}
    (base : CoinsView σ) :
    List Block → CoinsCache →
      StateM σ
        (Except ValidationError (List BlockUndo) ×
          CoinsCache)
  | [], coins => pure (.ok [], coins)
  | block :: blocks, coins => do
      match ← connectBlock c params base block coins with
      | (.error error, coins) => pure (.error error, coins)
      | (.ok result, coins) =>
          let (undos, coins) ←
            connectBlocks base blocks coins
          pure (undos.map (result.undo :: ·), coins)

/- Disconnects the blocks, the last one first. -/
def disconnectBlocks
    {σ : Type}
    (base : CoinsView σ) :
    List (Block × BlockUndo) → CoinsCache →
      StateM σ (Except DisconnectError Unit × CoinsCache)
  | [], coins => pure (.ok (), coins)
  | (block, undo) :: blocks, coins => do
      match ← disconnectBlocks base blocks coins with
      | (.error error, coins) => pure (.error error, coins)
      | (.ok (), coins) =>
          disconnectBlock c base block undo coins

section Set

variable (set : Utxo)

/- Connecting over a set held in memory, in one step. -/
theorem connectBlock_ofSet
    (block : Block)
    (coins : CoinsCache) :
    Prod.map id (CoinsCache.lookup set)
        (connectBlock c params (.ofSet set) block coins
          ()).1 =
      afterBatch (coins.lookup set)
        (Utxo.connectBlock c params block
          (coins.lookup set)) :=
  ((connectBlock_tracks c params
    (CoinsView.ofSet_answers set) block coins () rfl).2
    rfl).2

theorem disconnectBlock_ofSet
    (block : Block)
    (undo : BlockUndo)
    (coins : CoinsCache) :
    Prod.map id (CoinsCache.lookup set)
        (disconnectBlock c (.ofSet set) block undo coins
          ()).1 =
      afterBatch (coins.lookup set)
        ((Utxo.disconnectBlock c block undo
          (coins.lookup set)).map (Prod.mk ())) :=
  ((disconnectBlock_tracks c
    (CoinsView.ofSet_answers set) block undo coins () rfl).2
    rfl).2

variable {set}

theorem connectBlock_ofSet_ok
    {block : Block}
    {coins : CoinsCache}
    {result : ConnectResult}
    (hConnected :
      (connectBlock c params (.ofSet set) block coins
        ()).1.1 = .ok result) :
    Utxo.connectBlock c params block (coins.lookup set) =
      .ok (result,
        (connectBlock c params (.ofSet set) block coins
          ()).1.2.lookup set) := by
  have hStep := connectBlock_ofSet c params set block coins
  rw [Prod.map, hConnected] at hStep
  exact eq_map_of_afterBatch hStep

/-
  Reversing a connected block gives back every lookup, from
  any cache that answers as the connected one does.
-/
theorem disconnectBlock_after_connectBlock
    {block : Block}
    {coins later : CoinsCache}
    {result : ConnectResult}
    (hConnected :
      (connectBlock c params (.ofSet set) block coins
        ()).1.1 = .ok result)
    (hLater :
      later.lookup set =
        (connectBlock c params (.ofSet set) block coins
          ()).1.2.lookup set) :
    (disconnectBlock c (.ofSet set) block result.undo later
        ()).1.1 = .ok () ∧
      (disconnectBlock c (.ofSet set) block result.undo later
        ()).1.2.lookup set = coins.lookup set := by
  have hBack := Utxo.disconnectBlock_connectBlock
    (connectBlock_ofSet_ok c params hConnected)
  have hStep := disconnectBlock_ofSet c set block
    result.undo later
  rw [hLater, hBack] at hStep
  rw [Prod.ext_iff, Prod.map_fst, Prod.map_snd] at hStep
  exact hStep

theorem disconnectBlocks_after_connectBlocks
    {blocks : List Block}
    {coins later : CoinsCache}
    {undos : List BlockUndo}
    (hConnected :
      (connectBlocks c params (.ofSet set) blocks coins
        ()).1.1 = .ok undos)
    (hLater :
      later.lookup set =
        (connectBlocks c params (.ofSet set) blocks coins
          ()).1.2.lookup set) :
    (disconnectBlocks c (.ofSet set) (blocks.zip undos) later
        ()).1.1 = .ok () ∧
      (disconnectBlocks c (.ofSet set) (blocks.zip undos)
        later ()).1.2.lookup set = coins.lookup set := by
  induction blocks generalizing coins undos with
  | nil => exact ⟨rfl, hLater⟩
  | cons block blocks ih =>
      rcases hFirst : connectBlock c params (.ofSet set)
        block coins () with ⟨⟨outcome, after⟩, _⟩
      cases outcome with
      | error error =>
          simp [connectBlocks, bind, StateT.bind, hFirst,
            pure, stateT_pure_apply] at hConnected
      | ok result =>
          simp only [connectBlocks, bind, StateT.bind,
            hFirst, pure, stateT_pure_apply]
            at hConnected hLater
          rcases except_map_eq_ok.mp hConnected with
            ⟨rest, hRest, rfl⟩
          rcases ih hRest hLater with ⟨hDone, hMiddle⟩
          rcases hUndone : disconnectBlocks c (.ofSet set)
            (blocks.zip rest) later () with
            ⟨⟨undone, middle⟩, _⟩
          rw [hUndone] at hDone hMiddle
          cases hDone
          have hTop :
              (connectBlock c params (.ofSet set) block coins
                ()).1.1 = .ok result := by
            rw [hFirst]
          have hReached :
              middle.lookup set =
                (connectBlock c params (.ofSet set) block
                  coins ()).1.2.lookup set := by
            rw [hFirst]
            exact hMiddle
          have hLast := disconnectBlock_after_connectBlock
            c params hTop hReached
          simpa only [List.zip_cons_cons, disconnectBlocks,
            bind, StateT.bind, hUndone] using hLast

theorem connectBlock_ofSet_error
    {block : Block}
    {coins : CoinsCache}
    {error : ValidationError}
    (hRejected :
      (connectBlock c params (.ofSet set) block coins
        ()).1.1 = .error error) :
    (connectBlock c params (.ofSet set) block coins
      ()).1.2.lookup set = coins.lookup set := by
  have hStep := connectBlock_ofSet c params set block coins
  rw [Prod.map, hRejected] at hStep
  exact (afterBatch_eq_error.mp hStep).2

theorem disconnectBlock_ofSet_error
    {block : Block}
    {undo : BlockUndo}
    {coins : CoinsCache}
    {error : DisconnectError}
    (hRejected :
      (disconnectBlock c (.ofSet set) block undo coins
        ()).1.1 = .error error) :
    (disconnectBlock c (.ofSet set) block undo coins
      ()).1.2.lookup set = coins.lookup set := by
  have hStep := disconnectBlock_ofSet c set block undo coins
  rw [Prod.map, hRejected] at hStep
  exact (afterBatch_eq_error.mp hStep).2

end Set

/-
  Over every set and every change set on top of it: blocks
  that connect can be disconnected in reverse order with the
  undo records this gave, and every lookup is then what it
  was; a call that fails changes no lookup.
-/
theorem disconnect_undoes_connect
    (set : Utxo)
    (coins : CoinsCache) :
    (∀ block result,
      (connectBlock c params (.ofSet set) block coins
          ()).1.1 = .ok result →
        let after :=
          (connectBlock c params (.ofSet set) block coins
            ()).1.2
        let reversed :=
          (disconnectBlock c (.ofSet set) block result.undo
            after ()).1
        reversed.1 = .ok () ∧
          ∀ outpoint,
            reversed.2.lookups set outpoint =
              coins.lookups set outpoint) ∧
    (∀ blocks undos,
      (connectBlocks c params (.ofSet set) blocks coins
          ()).1.1 = .ok undos →
        let after :=
          (connectBlocks c params (.ofSet set) blocks coins
            ()).1.2
        let reversed :=
          (disconnectBlocks c (.ofSet set)
            (blocks.zip undos) after ()).1
        reversed.1 = .ok () ∧
          ∀ outpoint,
            reversed.2.lookups set outpoint =
              coins.lookups set outpoint) ∧
    (∀ block error,
      (connectBlock c params (.ofSet set) block coins
          ()).1.1 = .error error →
        ∀ outpoint,
          (connectBlock c params (.ofSet set) block coins
            ()).1.2.lookups set outpoint =
            coins.lookups set outpoint) ∧
    (∀ block undo error,
      (disconnectBlock c (.ofSet set) block undo coins
          ()).1.1 = .error error →
        ∀ outpoint,
          (disconnectBlock c (.ofSet set) block undo coins
            ()).1.2.lookups set outpoint =
            coins.lookups set outpoint) := by
  simp only [CoinsCache.lookups_eq]
  refine ⟨?_, ?_, ?_, ?_⟩
  · intro block result hConnected
    have hBack := disconnectBlock_after_connectBlock
      c params hConnected rfl
    exact ⟨hBack.1, congrFun hBack.2⟩
  · intro blocks undos hConnected
    have hBack := disconnectBlocks_after_connectBlocks
      c params hConnected rfl
    exact ⟨hBack.1, congrFun hBack.2⟩
  · intro block error hRejected
    exact congrFun
      (connectBlock_ofSet_error c params hRejected)
  · intro block undo error hRejected
    exact congrFun
      (disconnectBlock_ofSet_error c hRejected)

end Caches

/-
  A block whose second transaction spends a coin of the set
  and whose third spends what the second created.
-/
namespace ChainedSpend

/- A lock version without rules. -/
def anyoneCanSpend
    (amount : Int64) : TxOutput :=
  { amount, lock := { version := 2, program := [] } }

/- Nobody has to sign. -/
def emptyWitness : Witness :=
  { condition := { version := 1, threshold := 0, keys := [] }
    signatures := [] }

/- Moves all of an outpoint but the fee. -/
def spendOf
    (outpoint : OutPoint)
    (amount : Int64) : Transaction :=
  { version := 1
    inputs := [{ outpoint, sequence := 0 }]
    outputs := [anyoneCanSpend amount]
    locktime := 0
    witnesses := [emptyWitness]
    coinbaseData := [] }

/- Pays to anyone. -/
def coinbase : Transaction :=
  { version := 1
    inputs := [makeCoinbaseInput 1]
    outputs := [anyoneCanSpend 25]
    locktime := 0
    witnesses := []
    coinbaseData := [] }

/- The one outpoint that has a coin. -/
def funded : OutPoint :=
  { txid := Bytes32.zero, index := 7 }

/- Spends the coin. -/
def first : Transaction :=
  spendOf funded 900

/- Spends the first one in the same block. -/
def second : Transaction :=
  spendOf (outPointFor (first.txid .reference) 0) 800

def block : Block :=
  { header :=
      { version := 1
        height := 1
        prevBlock := Bytes32.zero
        merkleRoot := Bytes32.zero
        timestamp := 0
        targetBits := regtestPowLimitBits
        nonce := 0 }
    transactions := [coinbase, first, second] }

def set : Utxo := fun outpoint =>
  if outpoint = funded then
    some
      { output := anyoneCanSpend 1000
        height := 0
        isCoinbase := false }
  else
    none

theorem disconnect_undoes_connect_chained :
    ∃ result,
      (connectBlock .reference regtestParams (.ofSet set)
          block .empty ()).1.1 = .ok result ∧
        let after :=
          (connectBlock .reference regtestParams
            (.ofSet set) block .empty ()).1.2
        let reversed :=
          (disconnectBlock .reference (.ofSet set) block
            result.undo after ()).1
        reversed.1 = .ok () ∧
          ∀ outpoint,
            reversed.2.lookups set outpoint =
              CoinsCache.empty.lookups set outpoint := by
  rcases except_isOk
    (x := (connectBlock .reference regtestParams
      (.ofSet set) block .empty ()).1.1)
    (by decide +kernel) with
    ⟨result, hConnected⟩
  exact ⟨result, hConnected,
    (disconnect_undoes_connect .reference regtestParams set
      .empty).1 block result hConnected⟩

end ChainedSpend

end Amarian
