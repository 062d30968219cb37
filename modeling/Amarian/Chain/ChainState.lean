import Amarian.Storage.ChainDb

/-
  The active chain, and the calls that move it.

  A state holds the index, the chain of applied blocks, the
  changes to the coins and the database below them.  Calls
  are computations over that state.  Every write also
  records the moment it left behind: what the database held
  and what the index in memory was.

  Key definitions include:
    * `ChainEnv`
    * `ChainState`
    * `acceptHeader`
    * `acceptBlock`
    * `disconnectTip`
    * `connectTip`
    * `activateBestChain`
    * `Call`
    * `run`
-/

------------------------------------------------------------
-- States
------------------------------------------------------------

namespace Amarian

/-
  What a run is made with: the cryptography, the network,
  whether a sink was set, and which database operations
  fail.
-/
structure ChainEnv where
  crypto : Crypto
  params : ChainParams
  hasSink : Bool
  plan : FaultPlan

/- The database and the index right after a write. -/
structure Moment where
  db : ChainDb
  index : BlockIndex

/- The chain lists the applied blocks, the tip first. -/
structure ChainState where
  index : BlockIndex
  chain : List Hash256
  coins : CoinsCache
  db : ChainDb
  moments : List Moment

/- Code that reads and changes the chain state. -/
abbrev ChainM : Type → Type :=
  StateM ChainState

/- Why an activation stops short. -/
inductive ActivationError where
  | blockBodyUnavailable
  | undoRecordUnavailable
  | revertRejected
  | chainOutOfStep
  | commitFailed
  | storageFaulted
deriving DecidableEq

/- The error, and the block it is about. -/
structure ActivationFailure where
  error : ActivationError
  block : Hash256
  revert : Option DisconnectError
deriving DecidableEq

/- A block that an activation ruled out. -/
structure RejectedBlock where
  hash : Hash256
  height : UInt32
  error : ValidationError
deriving DecidableEq

/- What an activation did. -/
structure ActivationSummary where
  tip : Hash256
  connected : Nat
  disconnected : Nat
  rejected : List RejectedBlock
  reachedBestHeader : Bool
deriving DecidableEq

/- A part of an activation, which may stop it. -/
abbrev Activating : Type → Type :=
  ExceptT ActivationFailure ChainM

/- A failure that is not about reverting. -/
def stopped
    (error : ActivationError)
    (block : Hash256) : ActivationFailure :=
  { error, block, revert := none }

namespace ActiveChain

/- The block of the active chain at a height. -/
def atHeight
    (chain : List Hash256)
    (height : UInt32) : Option Hash256 :=
  chain.reverse[height.toNat]?

/- By height: one block at each height is on the chain. -/
def contains
    (chain : List Hash256)
    (link : Link) : Bool :=
  atHeight chain link.height == some link.hash

end ActiveChain

namespace ChainState

/- A node that knows of nothing but genesis. -/
def fresh
    (c : Crypto)
    (params : ChainParams) : ChainState :=
  let index := BlockIndex.forNetwork c params
  { index
    chain := [index.genesis]
    coins := .empty
    db := .empty
    moments := [] }

/- The chain is never empty: genesis stays on it. -/
def tip
    (state : ChainState) : Hash256 :=
  state.chain.headD state.index.genesis

/- What the coins answer for every outpoint. -/
def utxo
    (state : ChainState) : Utxo :=
  state.coins.lookup state.db.records.coins

end ChainState

------------------------------------------------------------
-- Access To The Parts
------------------------------------------------------------

section Operations

variable (env : ChainEnv)

/- Runs on the store alone. -/
def onDb
    {α : Type}
    (x : StateM ChainDb α) : ChainM α := fun state =>
  let done := x state.db
  (done.1, { state with db := done.2 })

/- A write leaves a moment at which the process may die. -/
def onDbWrite
    {α : Type}
    (x : StateM ChainDb α) : ChainM α := fun state =>
  let done := x state.db
  (done.1,
    { state with
      db := done.2
      moments := ⟨done.2, state.index⟩ :: state.moments })

/- Changes the index alone. -/
def modifyIndex
    (change : BlockIndex → BlockIndex) : ChainM Unit :=
  modify fun state =>
    { state with index := change state.index }

/- Without a sink there is nothing to write to. -/
def commitEntry
    (hash : Hash256) : ChainM Bool := do
  if !env.hasSink then
    pure true
  else
    match (← get).index.find hash with
    | none => pure true
    | some entry =>
        onDbWrite (ChainDb.commitHeader env.plan entry)

/- Only a node with a sink asks. -/
def storageFaulted : ChainM Bool := do
  pure (env.hasSink && (← get).db.faulted)

/- Without a sink the changes stay in the cache. -/
def commitCurrentTip : ChainM Bool := do
  if !env.hasSink then
    pure true
  else
    let state ← get
    let (committed, coins) ← onDbWrite
      (ChainDb.commitTip env.plan state.coins state.tip)
    modify fun state => { state with coins }
    pure committed

/- Connects a block over the coins in store. -/
def connectCoins
    (block : Block) :
    ChainM (Except ValidationError ConnectResult) :=
  fun state =>
    let done := connectBlock env.crypto env.params
      (ChainDb.coinsView env.plan) block state.coins state.db
    (done.1.1,
      { state with coins := done.1.2, db := done.2 })

/- Takes a block back from the coins in store. -/
def disconnectCoins
    (block : Block)
    (undo : BlockUndo) :
    ChainM (Except DisconnectError Unit) :=
  fun state =>
    let done := disconnectBlock env.crypto
      (ChainDb.coinsView env.plan) block undo state.coins
      state.db
    (done.1.1,
      { state with coins := done.1.2, db := done.2 })

------------------------------------------------------------
-- Accepting
------------------------------------------------------------

/- What is added goes on record, the answer ignored. -/
def acceptHeader
    (header : BlockHeader)
    (now : Int64) : ChainM (Except HeaderError Hash256) := do
  match (← get).index.addHeader env.crypto env.params header
      now with
  | .error error => pure (.error error)
  | .ok index =>
      modifyIndex fun _ => index
      let hash := header.hash env.crypto
      if !index.eligible hash then
        pure (.error (.index .alreadyRuledOut))
      else
        let _ ← commitEntry env hash
        pure (.ok hash)

/- A body whose header is indexed and eligible. -/
def acceptBody
    (block : Block)
    (hash : Hash256) :
    ChainM (Except HeaderError Hash256) := do
  match checkBlock env.crypto block env.params with
  | .error error =>
      modifyIndex fun index => index.recordFailure hash
      let _ ← commitEntry env hash
      pure (.error (.rule error))
  | .ok () =>
      let _ ← onDbWrite
        (ChainDb.putBlock env.plan hash block)
      modifyIndex fun index =>
        index.recordValidity hash .body
      let _ ← commitEntry env hash
      pure (.ok hash)

/- A body is judged against its header before it is kept. -/
def acceptBlock
    (block : Block)
    (now : Int64) : ChainM (Except HeaderError Hash256) := do
  match (← get).index.addHeader env.crypto env.params
      block.header now with
  | .error error => pure (.error error)
  | .ok index =>
      modifyIndex fun _ => index
      let hash := block.header.hash env.crypto
      if !index.eligible hash then
        pure (.error (.index .alreadyRuledOut))
      else if ← onDb (ChainDb.haveBlock env.plan hash) then
        pure (.ok hash)
      else
        acceptBody env block hash

------------------------------------------------------------
-- Moving The Tip
------------------------------------------------------------

/- One step back, over the body and the undo record. -/
def disconnectTip
    (summary : ActivationSummary) :
    Activating ActivationSummary := do
  let state ← get
  let hash := state.tip
  match (state.index.find hash).bind
      fun entry => entry.parent with
  | none => throw (stopped .chainOutOfStep hash)
  | some _ =>
      match ← ExceptT.lift
          (onDb (ChainDb.getBlock env.crypto env.plan hash))
        with
      | none => throw (stopped .blockBodyUnavailable hash)
      | some block =>
          match ← ExceptT.lift
              (onDb (ChainDb.getUndo env.plan hash)) with
          | none =>
              throw (stopped .undoRecordUnavailable hash)
          | some undo =>
              match ← ExceptT.lift
                  (disconnectCoins env block undo) with
              | .error error =>
                  throw
                    { error := .revertRejected
                      block := hash
                      revert := some error }
              | .ok () =>
                  ExceptT.lift
                    (modify fun state =>
                      { state with
                        chain := state.chain.tail })
                  if ← ExceptT.lift (commitCurrentTip env)
                  then
                    pure
                      { summary with
                        disconnected :=
                          summary.disconnected + 1 }
                  else
                    throw (stopped .commitFailed hash)

/-
  A verdict reached over a faulted store is not recorded,
  because ruling a block out is permanent.
-/
def refuseBlock
    (entry : BlockIndexEntry)
    (error : ValidationError)
    (summary : ActivationSummary) :
    Activating (Bool × ActivationSummary) := do
  if ← ExceptT.lift (storageFaulted env) then
    throw (stopped .storageFaulted entry.hash)
  else
    ExceptT.lift
      (modifyIndex fun index =>
        index.recordFailure entry.hash)
    let _ ← ExceptT.lift (commitEntry env entry.hash)
    pure (false,
      { summary with
        rejected :=
          summary.rejected ++
            [{ hash := entry.hash
               height := entry.height
               error }] })

/- The block was applied: it is the tip from here on. -/
def extendChain
    (hash : Hash256)
    (undo : BlockUndo)
    (summary : ActivationSummary) :
    Activating (Bool × ActivationSummary) := do
  let _ ← ExceptT.lift
    (onDbWrite (ChainDb.putUndo env.plan hash undo))
  ExceptT.lift
    (modify fun state =>
      { state with chain := hash :: state.chain })
  ExceptT.lift
    (modifyIndex fun index =>
      index.recordValidity hash .full)
  let _ ← ExceptT.lift (commitEntry env hash)
  if ← ExceptT.lift (commitCurrentTip env) then
    pure (true,
      { summary with connected := summary.connected + 1 })
  else
    throw (stopped .commitFailed hash)

/- The context-free rules, at most once in a block's life. -/
def checkBody
    (entry : BlockIndexEntry)
    (block : Block) : Verdict :=
  if entry.validity.rank < BlockValidity.body.rank then
    checkBlock env.crypto block env.params
  else
    .ok ()

/- One step forward, unless the block is ruled out. -/
def connectTip
    (hash : Hash256)
    (summary : ActivationSummary) :
    Activating (Bool × ActivationSummary) := do
  let state ← get
  match state.index.find hash with
  | none => throw (stopped .chainOutOfStep hash)
  | some entry =>
      if entry.parent ≠ some state.tip then
        throw (stopped .chainOutOfStep hash)
      else
        match ← ExceptT.lift
            (onDb
              (ChainDb.getBlock env.crypto env.plan hash))
          with
        | none => throw (stopped .blockBodyUnavailable hash)
        | some block =>
            match checkBody env entry block with
            | .error error =>
                refuseBlock env entry error summary
            | .ok () =>
                -- raises nothing that is past it already
                ExceptT.lift
                  (modifyIndex fun index =>
                    index.recordValidity hash .body)
                match ← ExceptT.lift
                    (connectCoins env block) with
                | .error error =>
                    refuseBlock env entry error summary
                | .ok applied =>
                    extendChain env hash applied.undo summary

------------------------------------------------------------
-- Activation
------------------------------------------------------------

/- The blocks up to the first one whose body is absent. -/
def reachable : List Link → ChainM (List Link)
  | [] => pure []
  | link :: links => do
      if ← onDb (ChainDb.haveBlock env.plan link.hash) then
        let rest ← reachable links
        pure (link :: rest)
      else
        pure []

/- The blocks in turn, each of them the tip. -/
def disconnectAll : List Link → ActivationSummary →
    Activating ActivationSummary
  | [], summary => pure summary
  | link :: links, summary => do
      if link.hash ≠ (← get).tip then
        throw (stopped .chainOutOfStep link.hash)
      else
        let summary ← disconnectTip env summary
        disconnectAll links summary

/- Stops at the first block that a rule refuses. -/
def connectAll : List Link → ActivationSummary →
    Activating ActivationSummary
  | [], summary => pure summary
  | link :: links, summary => do
      let (applied, summary) ←
        connectTip env link.hash summary
      if applied then
        connectAll links summary
      else
        pure summary

/- `IsBetterTip` on two entries of one index. -/
def BlockIndex.better
    (index : BlockIndex)
    (candidate incumbent : Hash256) : Bool :=
  match index.find candidate, index.find incumbent with
  | some candidate, some incumbent =>
      isBetterTip candidate incumbent
  | _, _ => false

/- Moves along the plan as far as bodies are stored. -/
def switchTo
    (fork : Link)
    (plan : ChainSwitch)
    (summary : ActivationSummary) :
    Activating (Bool × ActivationSummary) := do
  let path ← ExceptT.lift (reachable env plan.connect)
  let state ← get
  let attainable := (path.getLast?).getD fork
  if !state.index.better attainable.hash state.tip then
    pure (true, { summary with tip := state.tip })
  else
    let summary ← disconnectAll env plan.disconnect summary
    let summary ← connectAll env path summary
    let state ← get
    pure (false, { summary with tip := state.tip })

/- One pass of the loop: whether the call returns with it. -/
def activatePass
    (summary : ActivationSummary) :
    Activating (Bool × ActivationSummary) := do
  let state ← get
  match state.index.bestHeader with
  | none =>
      pure (true,
        { summary with
          tip := state.tip
          reachedBestHeader := false })
  | some target =>
      if target = state.tip then
        pure (true,
          { summary with
            tip := state.tip
            reachedBestHeader := true })
      else
        let plan := planChainSwitch
          (state.index.lineage state.tip)
          (state.index.lineage target)
        match plan.forkPoint with
        | none => throw (stopped .chainOutOfStep target)
        | some fork =>
            if !ActiveChain.contains state.chain fork then
              throw (stopped .chainOutOfStep fork.hash)
            else
              switchTo env fork plan summary

/- `none` would be a call that did not return in time. -/
def activateLoop : Nat → ActivationSummary →
    Activating (Option ActivationSummary)
  | 0, _ => pure none
  | fuel + 1, summary => do
      let (returned, summary) ← activatePass env summary
      if returned then
        pure (some summary)
      else
        activateLoop fuel summary

/-
  A pass that does not return leaves a better tip or rules
  a block out, so the number of entries bounds the passes.
-/
def activateBestChain :
    Activating (Option ActivationSummary) := do
  let state ← get
  let entries := state.index.entries.length
  activateLoop env ((entries + 1) * (entries + 2))
    { tip := state.tip
      connected := 0
      disconnected := 0
      rejected := []
      reachedBestHeader := false }

end Operations

------------------------------------------------------------
-- Runs
------------------------------------------------------------

/- What is called on the chain state. -/
inductive Call where
  | acceptHeader (header : BlockHeader) (now : Int64)
  | acceptBlock (block : Block) (now : Int64)
  | activateBestChain

/- The state a call leaves, with the moments of that call. -/
def step
    (env : ChainEnv)
    (state : ChainState)
    (call : Call) : ChainState :=
  let state :=
    { state with moments := [⟨state.db, state.index⟩] }
  match call with
  | .acceptHeader header now =>
      (acceptHeader env header now state).2
  | .acceptBlock block now =>
      (acceptBlock env block now state).2
  | .activateBestChain =>
      ((activateBestChain env).run state).2

/- The calls one after the other. -/
def runFrom
    (env : ChainEnv)
    (state : ChainState)
    (calls : List Call) : ChainState :=
  calls.foldl (step env) state

/- A run from a fresh state. -/
def run
    (env : ChainEnv)
    (calls : List Call) : ChainState :=
  runFrom env (.fresh env.crypto env.params) calls

end Amarian
