import Amarian.Chain.BlockIndex
import Amarian.Utxo.Connect

/-
  The node's database.

  The families hold what was written.  Which operations
  fail is decided by a plan that numbers them: a failed read
  answers as if the record were absent, a refused write
  leaves the families as they were, and both set the latch.

  Key definitions include:
    * `Records`
    * `FaultPlan`
    * `ChainDb`
    * `ChainDb.coinsView`
    * `ChainDb.commitHeader`
    * `ChainDb.commitTip`
    * `ChainDb.loadHeaders`
-/

------------------------------------------------------------
-- Records And Faults
------------------------------------------------------------

namespace Amarian

/- What of an index entry cannot be recomputed. -/
structure StoredHeader where
  header : BlockHeader
  sequence : Nat
  validity : BlockValidity
  failure : BlockFailure
deriving DecidableEq

/- The column families. -/
structure Records where
  coins : Utxo
  blocks : Hash256 → Option Block
  undo : Hash256 → Option BlockUndo
  index : AList fun _ : Hash256 => StoredHeader
  tip : Option Hash256

/- A store that was just created. -/
def Records.empty : Records :=
  { coins := Utxo.empty
    blocks := fun _ => none
    undo := fun _ => none
    index := ∅
    tip := none }

/- The kinds of access that may fail. -/
inductive DbOp where
  | read
  | putBlock
  | putUndo
  | commitHeader (record : StoredHeader)
  | commitTip
deriving DecidableEq

/- Whether the operation fails if it is the n-th one. -/
abbrev FaultPlan : Type :=
  DbOp → Nat → Bool

/- Why the store cannot be read back. -/
inductive DbError where
  | readFailed
  | corruptRecord
  | tipNotIndexed
deriving DecidableEq

/- The records, and whether an access has failed yet. -/
structure ChainDb where
  records : Records
  faulted : Bool
  operations : Nat

namespace ChainDb

/- A new store. -/
def empty : ChainDb :=
  { records := Records.empty
    faulted := false
    operations := 0 }

/- Issues an operation: whether it failed, with the latch. -/
def attempt
    (plan : FaultPlan)
    (op : DbOp) : StateM ChainDb Bool := fun db =>
  let fails := plan op db.operations
  (fails,
    { db with
      faulted := db.faulted || fails
      operations := db.operations + 1 })

/- A read that answers `absent` when it fails. -/
def readRecord
    {α : Type}
    (plan : FaultPlan)
    (absent : α)
    (answer : Records → α) : StateM ChainDb α := do
  if ← attempt plan .read then
    pure absent
  else
    pure (answer (← get).records)

/- A write that is dropped when it is refused. -/
def writeRecord
    (plan : FaultPlan)
    (op : DbOp)
    (change : Records → Records) : StateM ChainDb Bool := do
  if ← attempt plan op then
    pure false
  else
    modify fun db => { db with records := change db.records }
    pure true

/- From here on the store counts as faulted. -/
def fault : StateM ChainDb Unit :=
  modify fun db => { db with faulted := true }

------------------------------------------------------------
-- Coins
------------------------------------------------------------

/- No coin is reported if the read fails. -/
def getCoin
    (plan : FaultPlan)
    (outpoint : OutPoint) :
    StateM ChainDb (Option Coin) :=
  readRecord plan none fun records => records.coins outpoint

/- The same without the coin itself. -/
def haveCoin
    (plan : FaultPlan)
    (outpoint : OutPoint) : StateM ChainDb Bool :=
  readRecord plan false
    fun records => (records.coins outpoint).isSome

/- The store as the lowest layer of coins. -/
def coinsView
    (plan : FaultPlan) : CoinsView ChainDb where
  getCoin := getCoin plan
  haveCoin := haveCoin plan

------------------------------------------------------------
-- Bodies And Undo Records
------------------------------------------------------------

/- A failed read reports no body. -/
def haveBlock
    (plan : FaultPlan)
    (hash : Hash256) : StateM ChainDb Bool :=
  readRecord plan false
    fun records => (records.blocks hash).isSome

/- A body filed under another block's hash is a fault. -/
def getBlock
    (c : Crypto)
    (plan : FaultPlan)
    (hash : Hash256) : StateM ChainDb (Option Block) := do
  match ← readRecord plan none
      fun records => records.blocks hash with
  | none => pure none
  | some block =>
      if block.hash c ≠ hash then
        fault
        pure none
      else
        pure (some block)

/- A failed read reports no undo record. -/
def getUndo
    (plan : FaultPlan)
    (hash : Hash256) : StateM ChainDb (Option BlockUndo) :=
  readRecord plan none fun records => records.undo hash

/- Stores a body under its hash. -/
def putBlock
    (plan : FaultPlan)
    (hash : Hash256)
    (block : Block) : StateM ChainDb Bool :=
  writeRecord plan .putBlock fun records =>
    { records with
      blocks :=
        Function.update records.blocks hash (some block) }

/- Stores an undo record under its block's hash. -/
def putUndo
    (plan : FaultPlan)
    (hash : Hash256)
    (undo : BlockUndo) : StateM ChainDb Bool :=
  writeRecord plan .putUndo fun records =>
    { records with
      undo :=
        Function.update records.undo hash (some undo) }

------------------------------------------------------------
-- Commits
------------------------------------------------------------

/- What is kept of an entry. -/
def storedHeader
    (entry : BlockIndexEntry) : StoredHeader :=
  { header := entry.header
    sequence := entry.sequence
    validity := entry.validity
    failure := entry.failure }

/- A record replaces the one before it. -/
def commitHeader
    (plan : FaultPlan)
    (entry : BlockIndexEntry) : StateM ChainDb Bool :=
  writeRecord plan (.commitHeader (storedHeader entry))
    fun records =>
      { records with
        index :=
          records.index.insert entry.hash
            (storedHeader entry) }

/- The batch of the drained changes and the tip they make. -/
def applyBatch
    (changes : CoinsCache)
    (tip : Hash256)
    (records : Records) : Records :=
  { records with
    coins :=
      changes.entries.entries.foldl
        (fun coins entry =>
          Function.update coins entry.1 entry.2)
        records.coins
    tip := some tip }

/-
  Refused on top of a fault.  Otherwise the changes are
  drained before the batch is written, whatever becomes of
  it.
-/
def commitTip
    (plan : FaultPlan)
    (changes : CoinsCache)
    (tip : Hash256) :
    StateM ChainDb (Bool × CoinsCache) := do
  if (← get).faulted then
    pure (false, changes)
  else
    let written ← writeRecord plan .commitTip
      (applyBatch changes tip)
    pure (written, .empty)

------------------------------------------------------------
-- Startup
------------------------------------------------------------

/- The stored headers in order of arrival. -/
def loadHeaders
    (plan : FaultPlan) :
    StateM ChainDb (Except DbError (List StoredHeader)) :=
  readRecord plan (.error .readFailed) fun records =>
    .ok ((records.index.entries.map Sigma.snd).insertionSort
      fun left right => left.sequence ≤ right.sequence)

/- The tip that was committed last, if any. -/
def loadTip
    (plan : FaultPlan) :
    StateM ChainDb (Except DbError (Option Hash256)) :=
  readRecord plan (.error .readFailed)
    fun records => .ok records.tip

end ChainDb

end Amarian
