import Amarian.Net.PeerManager
import Amarian.Net.Sync

/-
  What a node does with the messages of a peer.

  The handler runs on the chain state, and on a pool that it
  reaches through two callbacks, each of which may be unset.
  A callback for the wallet is left out, as nothing that the
  handler does depends on it.

  Key definitions include:
    * `HandlerConfig`
    * `Node`
    * `Effect`
    * `handleMessage`
    * `nodeHandler`
-/

------------------------------------------------------------
-- Nodes
------------------------------------------------------------

namespace Amarian

namespace Net

structure HandlerConfig (σ : Type) where
  env : ChainEnv
  getTransaction :
    Option (σ → Hash256 → Option Transaction)
  acceptTransaction :
    Option
      (ChainState → Int64 → σ → Transaction → Bool × σ)

/- The chain, the pool and what the node has announced. -/
structure Node (σ : Type) where
  state : ChainState
  pool : σ
  addresses : List NetworkAddress
  announcedBlocks : List Hash256
  announcedTransactions : List Hash256

/-
  To the peer whose message it was, or to all that are
  connected.
-/
inductive Effect where
  | send (message : Message)
  | announce (message : Message)
  | score (points : Int)
  | close
deriving DecidableEq

/- The node after a message, with the effects. -/
abbrev Handled (σ : Type) : Type :=
  Node σ × List Effect

def inventoryMessage
    (command : Command)
    (items : List Inventory) : Message :=
  { command
    payload := (GetDataPayload.mk items).serialize }

/- Nothing is asked for if there is nothing to ask for. -/
def requestItems
    (items : List Inventory) : List Effect :=
  if items.isEmpty then []
  else [.send (inventoryMessage .getData items)]

def syncMessage
    (state : ChainState) : Message :=
  { command := .getHeaders
    payload := (startSync state).serialize }

variable {σ : Type}

namespace Node

/- Each hash is announced once in a node's life. -/
def announceBlock
    (node : Node σ)
    (hash : Hash256) : Handled σ :=
  if hash ∈ node.announcedBlocks then
    (node, [])
  else
    ({ node with
        announcedBlocks := hash :: node.announcedBlocks },
      [.announce (inventoryMessage .inv [⟨.block, hash⟩])])

def announceTransaction
    (node : Node σ)
    (hash : Hash256) : Handled σ :=
  if hash ∈ node.announcedTransactions then
    (node, [])
  else
    ({ node with
        announcedTransactions :=
          hash :: node.announcedTransactions },
      [.announce
        (inventoryMessage .inv [⟨.transaction, hash⟩])])

/- Part of the handler that runs on the chain alone. -/
def onChain
    {α : Type}
    (node : Node σ)
    (x : ChainM α) : α × Node σ :=
  let done := x node.state
  (done.1, { node with state := done.2 })

end Node

------------------------------------------------------------
-- One Function For Each Command
------------------------------------------------------------

section Handlers

variable (config : HandlerConfig σ) (now : Int64)
variable (payload : ByteVec) (node : Node σ)

/- A request that cannot be read closes the connection. -/
def onGetHeaders : Handled σ :=
  match handleGetHeaders node.state payload with
  | none => (node, [.close])
  | some response =>
      (node,
        [.send
          { command := .headers
            payload := response.serialize }])

/- The blocks to ask for, unless a header is refused. -/
def acceptHeaders :
    List BlockHeader → ChainM (Option (List Inventory))
  | [] => pure (some [])
  | header :: headers => do
      match ← acceptHeader config.env header now with
      | .error _ => pure none
      | .ok hash =>
          let present ←
            onDb (ChainDb.haveBlock config.env.plan hash)
          let items ← acceptHeaders headers
          if present then
            pure items
          else
            pure (items.map (⟨.block, hash⟩ :: ·))

/- The headers are taken one by one. -/
def onHeaders : Handled σ :=
  match decodeWhole HeadersPayload.deserialize payload with
  | none => (node, [.close])
  | some received =>
      match node.onChain
          (acceptHeaders config now received.headers) with
      | (none, node) => (node, [.close])
      | (some items, node) => (node, requestItems items)

/- What is not there is passed over. -/
def answerItem
    (pool : σ)
    (item : Inventory) : ChainM (List Effect) := do
  if item.type = .block then
    match ← onDb (ChainDb.getBlock config.env.crypto
        config.env.plan item.hash) with
    | none => pure []
    | some block =>
        pure
          [.send
            { command := .block
              payload := block.serialize }]
  else if item.type = .transaction then
    match config.getTransaction.bind
        fun get => get pool item.hash with
    | none => pure []
    | some tx =>
        pure
          [.send
            { command := .tx
              payload := tx.serialize }]
  else
    pure []

/- The items are answered in the order asked. -/
def answerItems
    (pool : σ) : List Inventory → ChainM (List Effect)
  | [] => pure []
  | item :: items => do
      let first ← answerItem config pool item
      let rest ← answerItems pool items
      pure (first ++ rest)

/- Both kinds of item are served. -/
def onGetData : Handled σ :=
  match decodeWhole (GetDataPayload.deserialize 2000)
      payload with
  | none => (node, [.close])
  | some request =>
      let (effects, node) := node.onChain
        (answerItems config node.pool request.items)
      (node, effects)

/- What is announced is wanted if it is not there. -/
def wantsItem
    (pool : σ)
    (item : Inventory) : ChainM Bool := do
  if item.type = .block then
    let present ← onDb
      (ChainDb.haveBlock config.env.plan item.hash)
    pure (!present)
  else if item.type = .transaction then
    match config.getTransaction with
    | none => pure false
    | some get => pure (get pool item.hash).isNone
  else
    pure false

/- What the peer announced and this node lacks. -/
def wantedItems
    (pool : σ) : List Inventory → ChainM (List Inventory)
  | [] => pure []
  | item :: items => do
      let wanted ← wantsItem config pool item
      let rest ← wantedItems pool items
      pure (if wanted then item :: rest else rest)

/- The wanted items are asked for. -/
def onInv : Handled σ :=
  match decodeWhole (GetDataPayload.deserialize 2000)
      payload with
  | none => (node, [.close])
  | some inventory =>
      let (items, node) := node.onChain
        (wantedItems config node.pool inventory.items)
      (node, requestItems items)

/- Whether the block was there, unless it is refused. -/
def takeBlock
    (block : Block) : ChainM (Option Bool) := do
  let present ← onDb
    (ChainDb.haveBlock config.env.plan
      (block.hash config.env.crypto))
  match ← acceptBlock config.env block now with
  | .error _ => pure none
  | .ok _ =>
      match ← (activateBestChain config.env).run with
      | .error _ => pure none
      | .ok _ => pure (some present)

/- A new block is announced to the others. -/
def onBlock : Handled σ :=
  match decodeWhole
      (Block.deserialize config.env.params.blockLimits)
      payload with
  | none => (node, [.close])
  | some block =>
      match node.onChain (takeBlock config now block) with
      | (none, node) => (node, [.close])
      | (some present, node) =>
          let (node, effects) :=
            if present then (node, [])
            else
              node.announceBlock
                (block.hash config.env.crypto)
          (node, effects ++ [.send (syncMessage node.state)])

def onTx : Handled σ :=
  match decodeWhole
      (Transaction.deserialize
        config.env.params.blockLimits.tx) payload with
  | none => (node, [.close])
  | some tx =>
      match config.acceptTransaction with
      | none => (node, [])
      | some accept =>
          let (accepted, pool) :=
            accept node.state now node.pool tx
          if accepted then
            { node with pool }.announceTransaction
              (tx.wtxid config.env.crypto)
          else
            ({ node with pool }, [])

/- A malformed request costs the peer twenty points. -/
def onGetAddr : Handled σ :=
  match decodeWhole deserializeGetAddr payload with
  | none => (node, [.score 20, .close])
  | some _ =>
      (node,
        [.send
          { command := .addr
            payload :=
              (AddrPayload.mk node.addresses).serialize }])

def onAddr : Handled σ :=
  match decodeWhole (AddrPayload.deserialize 1000)
      payload with
  | none => (node, [.score 20, .close])
  | some received =>
      ({ node with
          addresses :=
            received.addresses.foldl addAddress
              node.addresses },
        [])

/- The answer repeats the nonce. -/
def onPing : Handled σ :=
  match decodeWhole PingPayload.deserialize payload with
  | none => (node, [.close])
  | some ping =>
      (node,
        [.send
          { command := .pong
            payload := ping.serialize }])

def onPong : Handled σ :=
  match decodeWhole PingPayload.deserialize payload with
  | none => (node, [.close])
  | some _ => (node, [])

/- One handler for every command. -/
def handleMessage : Command → Handled σ
  | .getHeaders => onGetHeaders payload node
  | .headers => onHeaders config now payload node
  | .getData => onGetData config payload node
  | .inv => onInv config payload node
  | .block => onBlock config now payload node
  | .tx => onTx config now payload node
  | .getAddr => onGetAddr payload node
  | .addr => onAddr payload node
  | .ping => onPing payload node
  | .pong => onPong payload node
  | .hello | .helloAck | .other _ => (node, [])

end Handlers

/- The handler as the peer manager counts its effects. -/
def nodeHandler
    (config : HandlerConfig σ)
    (now : Int64) : NodeHandler (Node σ) :=
  fun node command payload =>
    let (node, effects) :=
      handleMessage config now payload node command
    (node,
      { sends :=
          effects.countP fun
            | .send _ => true
            | _ => false
        announces :=
          effects.countP fun
            | .announce _ => true
            | _ => false
        closes := effects.contains .close })

end Net

end Amarian
