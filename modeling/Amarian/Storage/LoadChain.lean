import Amarian.Chain.ChainState

/-
  Starting from what an earlier process left behind.

  Every stored header goes through `addHeader` again, under
  a clock that is late enough for all of them.  Failures
  come second, and only those a block was itself the cause
  of: the others follow from these.

  Key definitions include:
    * `replayClock`
    * `replayHeader`
    * `replayFailure`
    * `restoreChain`
    * `loadChain`
    * `restart`
-/

------------------------------------------------------------
-- Replaying The Records
------------------------------------------------------------

namespace Amarian

/- What is restored from the store. -/
structure LoadedChain where
  index : BlockIndex
  tip : Hash256
  restored : Nat

section LoadChain

variable (c : Crypto) (params : ChainParams)

/-
  No stored header is ahead of this clock, and the ceiling
  that is computed from it does not overflow.
-/
def replayClock
    (now : Int64)
    (stored : List StoredHeader) : Int64 :=
  min
    (stored.foldl
      (fun clock record => max clock record.header.timestamp)
      now)
    (Int64.maxValue - maxFutureBlockSeconds)

/- Genesis is seeded already and is passed over. -/
def replayHeader
    (clock : Int64)
    (loaded : BlockIndex × Nat)
    (record : StoredHeader) :
    Except DbError (BlockIndex × Nat) :=
  if record.header = (buildGenesisBlock c params).header then
    .ok loaded
  else
    match loaded.1.addHeader c params record.header clock with
    | .error _ => .error .corruptRecord
    | .ok index =>
        .ok
          (index.recordValidity (record.header.hash c)
            record.validity,
            loaded.2 + 1)

/- A failure that an ancestor caused is derived again. -/
def replayFailure
    (index : BlockIndex)
    (record : StoredHeader) : Except DbError BlockIndex :=
  if record.failure ≠ .itself then
    .ok index
  else
    match index.find (record.header.hash c) with
    | none => .error .corruptRecord
    | some ruledOut => .ok (index.recordFailure ruledOut.hash)

/- Without a committed tip the chain is genesis alone. -/
def resumedTip
    (index : BlockIndex)
    (committed : Option Hash256) :
    Except DbError Hash256 :=
  match committed with
  | none => .ok index.genesis
  | some tip =>
      match index.find tip with
      | none => .error .tipNotIndexed
      | some resumed =>
          if !resumed.isEligible then .error .corruptRecord
          else .ok resumed.hash

/- The records are in the order of their arrival numbers. -/
def restoreChain
    (now : Int64)
    (stored : List StoredHeader)
    (committed : Option Hash256) :
    Except DbError LoadedChain := do
  let clock := replayClock now stored
  let (index, restored) ← stored.foldlM
    (replayHeader c params clock)
    (BlockIndex.forNetwork c params, 0)
  let index ← stored.foldlM (replayFailure c) index
  let tip ← resumedTip index committed
  pure { index, tip, restored }

/- The headers in order, then the tip. -/
def loadChain
    (plan : FaultPlan)
    (now : Int64) :
    StateM ChainDb (Except DbError LoadedChain) := do
  match ← ChainDb.loadHeaders plan with
  | .error error => pure (.error error)
  | .ok stored =>
      match ← ChainDb.loadTip plan with
      | .error error => pure (.error error)
      | .ok committed =>
          pure (restoreChain c params now stored committed)

end LoadChain

------------------------------------------------------------
-- Resuming
------------------------------------------------------------

/- The tip and its ancestors, the tip first. -/
def resumeAt
    (index : BlockIndex)
    (tip : Hash256) : List Hash256 :=
  (index.lineage tip).map fun link => link.hash

/-
  A new process over the database: the latch is off, the
  cache of coins is empty and the rest is what was loaded.
-/
def restart
    (env : ChainEnv)
    (now : Int64)
    (db : ChainDb) : Except DbError ChainState :=
  let done := loadChain env.crypto env.params env.plan now
    { db with faulted := false }
  done.1.map fun loaded =>
    { index := loaded.index
      chain := resumeAt loaded.index loaded.tip
      coins := .empty
      db := done.2
      moments := [] }

end Amarian
