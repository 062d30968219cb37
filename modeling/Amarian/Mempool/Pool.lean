import Amarian.Consensus.Validation
import Amarian.Lib.Search
import Amarian.Lib.Table
import Amarian.Mempool.Feerate
import Amarian.Utxo.Coins

/-
  The pool of unconfirmed transactions.

  The entries are keyed by their witness ids and carry links
  to the entries they spend from and to those that spend from
  them.  The sets and maps of the source have no order; they
  are lists without repetition, tables and functions here.

  What only reports on the pool (the floor of the fee rate,
  the texts of the refusals) is left out.

  Key definitions include:
    * `Mempool`
    * `Mempool.unlink`
    * `Mempool.removeForBlock`
    * `Mempool.removeForReorg`
    * `Mempool.trim`
    * `Mempool.accept`
-/

------------------------------------------------------------
-- Entries
------------------------------------------------------------

namespace Amarian

/- Above this the cheapest packages go. -/
def maxMempoolWeight : Nat := 50000000

/- One facet for each unit of weight. -/
def minRelayFeerate : Int64 := 1

/- The arrival itself is counted. -/
def maxMempoolDescendants : Nat := 25

/- The arrival itself is not counted. -/
def maxMempoolAncestors : Nat := 25

/- The most that a replacement may displace. -/
def maxReplacementEvictions : Nat := 100

/- Why a transaction is not taken. -/
inductive RejectReason where
  | coinbase
  | alreadyPresent
  | consensusRuleFailed
  | missingOrSpentInput
  | zeroWeight
  | feeBelowRelayMinimum
  | tooManyAncestors
  | tooManyDescendants
  | conflictFeerateTooLow
  | conflictFeeTooLow
  | conflictsTooMany
  | poolFull
deriving DecidableEq, Repr

/- The reason, and the consensus rule behind it if any. -/
structure Rejection where
  reason : RejectReason
  rule : Option ValidationError
deriving DecidableEq

/- A transaction with what is known of it. -/
structure Entry where
  tx : Transaction
  txid : Hash256
  wtxid : Hash256
  fee : Int64
  weight : Nat
  time : Int64
deriving DecidableEq

/- An entry with its links to other entries. -/
structure EntryInternal where
  entry : Entry
  children : List Hash256
  parents : List Hash256
deriving DecidableEq

/- The entries, two indices and two totals. -/
structure Mempool where
  entries : Table Hash256 EntryInternal
  spentBy : OutPoint → Option Hash256
  byTxid : Hash256 → Option Hash256
  totalWeight : Nat
  totalFees : Int64

namespace Mempool

/- A pool without entries. -/
def empty : Mempool :=
  { entries := ∅
    spentBy := fun _ => none
    byTxid := fun _ => none
    totalWeight := 0
    totalFees := 0 }

/- Entries are known by their witness hash. -/
def contains
    (pool : Mempool)
    (wtxid : Hash256) : Bool :=
  (pool.entries.lookup wtxid).isSome

/- The entry of a witness hash. -/
def find
    (pool : Mempool)
    (wtxid : Hash256) : Option Entry :=
  (pool.entries.lookup wtxid).map EntryInternal.entry

/- The entry of a transaction hash. -/
def findByTxid
    (pool : Mempool)
    (txid : Hash256) : Option Entry :=
  (pool.byTxid txid).bind pool.find

/- The witness hashes of all entries. -/
def wtxids
    (pool : Mempool) : List Hash256 :=
  pool.entries.keys

------------------------------------------------------------
-- The Shape Of The Pool
------------------------------------------------------------

/- One side of an entry's links. -/
def linked
    (side : EntryInternal → List Hash256)
    (pool : Mempool)
    (wtxid : Hash256) : List Hash256 :=
  match pool.entries.lookup wtxid with
  | none => []
  | some links => side links

/- Every link is followed at most once. -/
def linkFuel
    (side : EntryInternal → List Hash256)
    (pool : Mempool) : Nat :=
  (pool.entries.entries.flatMap
    fun entry => side entry.2).length + 1

/- All that the links of one side lead to. -/
def reached
    (side : EntryInternal → List Hash256)
    (pool : Mempool)
    (wtxid : Hash256) : List Hash256 :=
  if pool.contains wtxid then
    Search.reach (pool.linked side) (pool.linkFuel side)
      wtxid
  else
    []

/- The entry, and all that spend from it. -/
def descendantsOf
    (pool : Mempool)
    (wtxid : Hash256) : List Hash256 :=
  pool.reached EntryInternal.children wtxid

/- The entry, and all that it spends from. -/
def ancestorsOf
    (pool : Mempool)
    (wtxid : Hash256) : List Hash256 :=
  pool.reached EntryInternal.parents wtxid

/- The fee and the weight of some entries together. -/
def totalsOf
    (pool : Mempool)
    (ids : List Hash256) : Int64 × Nat :=
  ids.foldl
    (fun totals id =>
      match pool.find id with
      | none => totals
      | some entry =>
          (totals.1 + entry.fee, totals.2 + entry.weight))
    (0, 0)

/- What it and its descendants pay and weigh. -/
def descendantTotals
    (pool : Mempool)
    (wtxid : Hash256) : Int64 × Nat :=
  pool.totalsOf (pool.descendantsOf wtxid)

/- The entries that spend the same outpoints. -/
def directConflicts
    (pool : Mempool)
    (tx : Transaction) : List Hash256 :=
  (tx.inputs.filterMap
    fun input => pool.spentBy input.outpoint).dedup

/- What a replacement by `tx` would take out of the pool. -/
def doomedBy
    (pool : Mempool)
    (tx : Transaction) : List Hash256 :=
  ((pool.directConflicts tx).flatMap
    pool.descendantsOf).dedup

/- The entries that `tx` spends from. -/
def parentsFor
    (pool : Mempool)
    (tx : Transaction) : List Hash256 :=
  (tx.inputs.filterMap
    fun input => pool.byTxid input.outpoint.txid).dedup

/- The entries `tx` would depend on, once in the pool. -/
def ancestorsFor
    (pool : Mempool)
    (tx : Transaction) : List Hash256 :=
  (((pool.parentsFor tx).flatMap pool.ancestorsOf).filter
    fun id => id ∉ pool.doomedBy tx).dedup

/- The descendants of an entry that `tx` leaves in place. -/
def survivingDescendants
    (pool : Mempool)
    (tx : Transaction)
    (id : Hash256) : List Hash256 :=
  (pool.descendantsOf id).filter
    fun other => other ≠ id ∧ other ∉ pool.doomedBy tx

------------------------------------------------------------
-- Removal
------------------------------------------------------------

/- A link less on one side. -/
def dropChild
    (wtxid : Hash256)
    (links : EntryInternal) : EntryInternal :=
  { links with
    children := links.children.filter (· ≠ wtxid) }

/- A link less on the other side. -/
def dropParent
    (wtxid : Hash256)
    (links : EntryInternal) : EntryInternal :=
  { links with
    parents := links.parents.filter (· ≠ wtxid) }

/- An outpoint is given up only by its recorded spender. -/
def releaseInputs
    (wtxid : Hash256)
    (inputs : List TxInput)
    (spentBy : OutPoint → Option Hash256) :
    OutPoint → Option Hash256 :=
  inputs.foldl
    (fun spentBy input =>
      if spentBy input.outpoint = some wtxid then
        Function.update spentBy input.outpoint none
      else
        spentBy)
    spentBy

/- Drops an entry, both directions of its links repaired. -/
def unlink
    (pool : Mempool)
    (wtxid : Hash256) : Mempool :=
  match pool.entries.lookup wtxid with
  | none => pool
  | some doomed =>
      { entries :=
          (Table.modifyAll (dropParent wtxid) doomed.children
            (Table.modifyAll (dropChild wtxid)
              doomed.parents pool.entries)).erase wtxid
        spentBy :=
          releaseInputs wtxid doomed.entry.tx.inputs
            pool.spentBy
        byTxid :=
          if pool.byTxid doomed.entry.txid = some wtxid then
            Function.update pool.byTxid doomed.entry.txid
              none
          else
            pool.byTxid
        totalWeight :=
          pool.totalWeight - doomed.entry.weight
        totalFees := pool.totalFees - doomed.entry.fee }

/- The children of a removed entry stay. -/
def remove
    (pool : Mempool)
    (wtxid : Hash256) : Mempool :=
  pool.unlink wtxid

/- The entry goes with its descendants. -/
def removeRecursive
    (pool : Mempool)
    (wtxid : Hash256) : Nat × Mempool :=
  let doomed := pool.descendantsOf wtxid
  (doomed.length, doomed.foldl unlink pool)

/- Confirmed transactions leave alone, matched by txid. -/
def removeConfirmed
    (c : Crypto)
    (block : Block)
    (pool : Mempool) : Nat × Mempool :=
  block.transactions.foldl
    (fun state tx =>
      match state.2.byTxid (tx.txid c) with
      | none => state
      | some wtxid => (state.1 + 1, state.2.remove wtxid))
    (0, pool)

/- What spends a coin the block spent leaves recursively. -/
def removeConflicting
    (block : Block)
    (state : Nat × Mempool) : Nat × Mempool :=
  (block.transactions.filter
    fun tx => !tx.isCoinbase).foldl
    (fun state tx =>
      tx.inputs.foldl
        (fun state input =>
          match state.2.spentBy input.outpoint with
          | none => state
          | some spender =>
              let gone := state.2.removeRecursive spender
              (state.1 + gone.1, gone.2))
        state)
    state

/- What is confirmed goes, then what conflicts. -/
def removeForBlock
    (c : Crypto)
    (pool : Mempool)
    (block : Block) : Nat × Mempool :=
  removeConflicting block (removeConfirmed c block pool)

/- The coins of a transaction, on the chain or in the pool. -/
def resolveInputs
    (pool : Mempool)
    (tx : Transaction)
    (base : Utxo)
    (spendHeight : UInt32) : Option (List Coin) :=
  tx.inputs.mapM fun input =>
    match base input.outpoint with
    | some confirmed => some confirmed
    | none =>
        (pool.findByTxid input.outpoint.txid).bind
          fun parent =>
            parent.tx.outputs[
              input.outpoint.index.toNat]?.map
              fun output =>
                { output := output
                  height := spendHeight
                  isCoinbase := false }

/- Every entry is judged again, and leaves if it fails. -/
def removeForReorg
    (c : Crypto)
    (pool : Mempool)
    (base : Utxo)
    (spendHeight : UInt32)
    (params : ChainParams) : Nat × Mempool :=
  pool.wtxids.foldl
    (fun state wtxid =>
      match state.2.find wtxid with
      | none => state
      | some entry =>
          let stands :=
            match state.2.resolveInputs entry.tx base
                spendHeight with
            | none => false
            | some spent =>
                (checkTransactionInputs c entry.tx spent
                  spendHeight params).isOk
          if stands then
            state
          else
            let gone := state.2.removeRecursive wtxid
            (state.1 + gone.1, gone.2))
    (0, pool)

------------------------------------------------------------
-- Eviction
------------------------------------------------------------

/- An entry with the totals of its descendant package. -/
structure Candidate where
  id : Hash256
  fee : Int64
  weight : Nat
deriving DecidableEq

/- An entry with the totals of its package. -/
def candidate
    (pool : Mempool)
    (id : Hash256) : Candidate :=
  let totals := pool.descendantTotals id
  { id := id, fee := totals.1, weight := totals.2 }

/- Ties are broken by hash. -/
def Candidate.isWorse
    (next worst : Candidate) : Bool :=
  match compareFeerate next.fee next.weight worst.fee
      worst.weight with
  | .lt => true
  | .eq => bytesLess next.id.bytes worst.id.bytes
  | .gt => false

/- The cheapest package of the pool. -/
def worst
    (pool : Mempool) : Option Candidate :=
  pool.wtxids.foldl
    (fun worst id =>
      let next := pool.candidate id
      match worst with
      | none => some next
      | some held =>
          if next.isWorse held then some next else some held)
    none

/- Every round removes an entry, so one round each is enough. -/
def trimRounds
    (targetWeight : Nat) :
    Nat → Nat × Mempool → Nat × Mempool
  | 0, state => state
  | rounds + 1, state =>
      if state.2.totalWeight > targetWeight then
        match state.2.worst with
        | none => state
        | some worst =>
            let gone := state.2.removeRecursive worst.id
            trimRounds targetWeight rounds
              (state.1 + gone.1, gone.2)
      else
        state

/- Evicts the worst package until the weight fits. -/
def trim
    (pool : Mempool)
    (targetWeight : Nat) : Nat × Mempool :=
  trimRounds targetWeight pool.wtxids.length (0, pool)

------------------------------------------------------------
-- Acceptance
------------------------------------------------------------

/- A refusal of the pool's own. -/
def refuse
    {α : Type}
    (reason : RejectReason) : Except Rejection α :=
  .error { reason := reason, rule := none }

/- Refuses on a condition. -/
def refuseIf
    (condition : Bool)
    (reason : RejectReason) : Except Rejection Unit :=
  if condition then refuse reason else .ok ()

/- A rule that the next block would apply. -/
def underRule
    {α : Type}
    (verdict : Except ValidationError α) :
    Except Rejection α :=
  verdict.mapError fun rule =>
    { reason := .consensusRuleFailed, rule := some rule }

/- What was worked out before anything changes. -/
structure Admission where
  fee : Int64
  doomed : List Hash256
  parents : List Hash256
deriving DecidableEq

/- The swap has to pay, in rate and in total. -/
def checkReplacement
    (pool : Mempool)
    (tx : Transaction)
    (fee : Int64) : Except Rejection Unit := do
  refuseIf
    ((pool.directConflicts tx).any fun id =>
      let cluster := pool.descendantTotals id
      compareFeerate fee tx.weight cluster.1 cluster.2 !=
        .gt)
    .conflictFeerateTooLow
  refuseIf
    (decide (fee ≤ (pool.totalsOf (pool.doomedBy tx)).1))
    .conflictFeeTooLow

/- Every reason to refuse but a full pool. -/
def judge
    (c : Crypto)
    (pool : Mempool)
    (tx : Transaction)
    (spentCoins : List Coin)
    (spendHeight : UInt32)
    (params : ChainParams) :
    Except Rejection Admission := do
  refuseIf tx.isCoinbase .coinbase
  refuseIf (pool.contains (tx.wtxid c)) .alreadyPresent
  underRule (checkTransaction tx params)
  let fee ← underRule
    (checkTransactionInputs c tx spentCoins spendHeight
      params)
  refuseIf (tx.weight == 0) .zeroWeight
  refuseIf (decide (tx.weight > maxMempoolWeight)) .poolFull
  refuseIf
    (decide (fee <
      Int64.ofNat tx.weight * minRelayFeerate))
    .feeBelowRelayMinimum
  let doomed := pool.doomedBy tx
  refuseIf
    (decide (doomed.length > maxReplacementEvictions))
    .conflictsTooMany
  if !doomed.isEmpty then
    checkReplacement pool tx fee
  let parents := pool.parentsFor tx
  if parents.any (· ∈ doomed) then
    .error
      { reason := .missingOrSpentInput
        rule := some .txInputMissingOrSpent }
  refuseIf
    (decide ((pool.ancestorsFor tx).length >
      maxMempoolAncestors))
    .tooManyAncestors
  refuseIf
    ((pool.ancestorsFor tx).any fun id =>
      decide ((pool.survivingDescendants tx id).length + 1 >
        maxMempoolDescendants))
    .tooManyDescendants
  return { fee := fee, doomed := doomed, parents := parents }

/- A link more on one side. -/
def addChild
    (wtxid : Hash256)
    (links : EntryInternal) : EntryInternal :=
  { links with children := links.children.insert wtxid }

/- Enters it into the table, the links and the indices. -/
def insertEntry
    (pool : Mempool)
    (entry : Entry)
    (parents : List Hash256) : Mempool :=
  { entries :=
      Table.modifyAll (addChild entry.wtxid) parents
        (pool.entries.insert entry.wtxid
          { entry := entry
            children := []
            parents := parents })
    spentBy :=
      entry.tx.inputs.foldl
        (fun spentBy input =>
          Function.update spentBy input.outpoint
            (some entry.wtxid))
        pool.spentBy
    byTxid :=
      Function.update pool.byTxid entry.txid
        (some entry.wtxid)
    totalWeight := pool.totalWeight + entry.weight
    totalFees := pool.totalFees + entry.fee }

/- The entry that an arrival becomes. -/
def entryFor
    (c : Crypto)
    (tx : Transaction)
    (fee now : Int64) : Entry :=
  { tx := tx
    txid := tx.txid c
    wtxid := tx.wtxid c
    fee := fee
    weight := tx.weight
    time := now }

/- The displaced entries go, and the arrival comes in. -/
def commit
    (c : Crypto)
    (pool : Mempool)
    (tx : Transaction)
    (now : Int64)
    (admission : Admission) : Mempool :=
  (admission.doomed.foldl unlink pool).insertEntry
    (entryFor c tx admission.fee now) admission.parents

/- A pool over the cap sheds packages, the arrival too. -/
def settle
    (wtxid : Hash256)
    (pool : Mempool) : Except Rejection Entry × Mempool :=
  let kept :=
    if pool.totalWeight > maxMempoolWeight then
      (pool.trim maxMempoolWeight).2
    else
      pool
  match kept.find wtxid with
  | none => (refuse .poolFull, kept)
  | some entry => (.ok entry, kept)

/- The coins that the transaction spends are given. -/
def acceptSpending
    (c : Crypto)
    (pool : Mempool)
    (tx : Transaction)
    (spentCoins : List Coin)
    (spendHeight : UInt32)
    (now : Int64)
    (params : ChainParams) :
    Except Rejection Entry × Mempool :=
  match pool.judge c tx spentCoins spendHeight params with
  | .error rejection => (.error rejection, pool)
  | .ok admission =>
      settle (tx.wtxid c) (pool.commit c tx now admission)

/- The coins are looked up in `base` and in the pool. -/
def accept
    (c : Crypto)
    (pool : Mempool)
    (tx : Transaction)
    (base : Utxo)
    (spendHeight : UInt32)
    (now : Int64)
    (params : ChainParams) :
    Except Rejection Entry × Mempool :=
  if tx.isCoinbase then
    (refuse .coinbase, pool)
  else
    match underRule (checkTransaction tx params) with
    | .error rejection => (.error rejection, pool)
    | .ok _ =>
        match pool.resolveInputs tx base spendHeight with
        | none =>
            (.error
              { reason := .missingOrSpentInput
                rule := some .txInputMissingOrSpent }, pool)
        | some spent =>
            pool.acceptSpending c tx spent spendHeight now
              params

end Mempool

end Amarian
