import Amarian.Chain.ActiveChain
import Amarian.Util.Hex

/-
  The methods that hand out identifiers of blocks and coins
  and take them back.

  Key definitions include:
    * `Json`
    * `Rpc.arg`
    * `Rpc.getBlockHash`
    * `Rpc.getBlock`
    * `Rpc.getTxOut`
-/

------------------------------------------------------------
-- Arguments
------------------------------------------------------------

namespace Amarian

/- A number that is no integer is kept as it was written. -/
inductive Json where
  | null
  | boolean (value : Bool)
  | unsigned (value : UInt64)
  | signed (value : Int64)
  | real (literal : String)
  | string (text : String)
  | array (elements : List Json)
  | object (members : List (String × Json))

namespace Json

def isNull : Json → Bool
  | null => true
  | _ => false

def ofUInt32
    (value : UInt32) : Json :=
  unsigned value.toUInt64

end Json

namespace Rpc

/- The codes of the dispatcher's errors. -/
inductive RpcError where
  | unknownMethod
  | invalidParams
  | malformedHex
  | malformedBlock
  | malformedTransaction
  | noPayout
  | noMempool
  | templateFailed
  | miningNotPermitted
  | notSolved
  | selfRejected
  | chainFault
deriving DecidableEq

structure Error where
  code : RpcError
  detail : String
deriving DecidableEq

abbrev Result := Except Error Json

/- An argument of the wrong kind. -/
def invalidParams
    (detail : String) : Error :=
  { code := .invalidParams, detail }

def malformedHex
    (detail : String) : Error :=
  { code := .malformedHex, detail }

/- The argument by position or by name; null counts as none. -/
def arg
    (params : Json)
    (index : Nat)
    (name : String) : Option Json :=
  let found :=
    match params with
    | .array elements => elements[index]?
    | .object members => members.lookup name
    | _ => none
  found.filter fun value => !value.isNull

def asString : Json → Except Error String
  | .string text => .ok text
  | _ => .error (invalidParams "expected a string")

/- A negative number is refused. -/
def asUint : Json → Except Error UInt64
  | .unsigned value => .ok value
  | _ =>
      .error (invalidParams "expected a non-negative integer")

/- The bytes in the order of the text. -/
def asBytes
    (value : Json) : Except Error ByteVec := do
  let text ← asString value
  match fromHex text with
  | none =>
      throw (malformedHex
        "expected an even number of hex digits")
  | some bytes => pure bytes

------------------------------------------------------------
-- Blocks By Height And By Hash
------------------------------------------------------------

def getBlockHash
    (state : ChainState)
    (args : Json) : Result :=
  match arg args 0 "height" with
  | none =>
      throw (invalidParams "getblockhash takes a height")
  | some given => do
      let height ← asUint given
      let entry :=
        if height ≤ 0xFFFFFFFF then
          state.entryAt height.toUInt32
        else
          none
      match entry with
      | none =>
          throw (invalidParams
            "this chain has no block at that height")
      | some entry => pure (.string entry.hash.toHex)

/-
  The search from genesis up, in 32 bits: with the tip at
  the last of all heights it finds its block or never ends.
  `none` is a search that is still going on.
-/
def searchActive
    (state : ChainState)
    (hash : Hash256) :
    Nat → UInt32 → Option (Option BlockIndexEntry)
  | 0, _ => none
  | fuel + 1, height =>
      if height ≤ state.tipHeight then
        match state.entryAt height with
        | some entry =>
            if entry.hash = hash then
              some (some entry)
            else
              searchActive state hash fuel (height + 1)
        | none => searchActive state hash fuel (height + 1)
      else
        some none

/- A block of the index, as `getblock` shows it. -/
def blockJson
    (entry : BlockIndexEntry) : Json :=
  .object
    [("hash", .string entry.hash.toHex),
      ("height", .ofUInt32 entry.height),
      ("version", .ofUInt32 entry.header.version),
      ("timestamp", .signed entry.header.timestamp),
      ("target_bits", .ofUInt32 entry.header.targetBits),
      ("nonce", .unsigned entry.header.nonce),
      ("prev_block", .string entry.header.prevBlock.toHex),
      ("merkle_root",
        .string entry.header.merkleRoot.toHex)]

/- What is answered once the hash has been parsed. -/
def blockReply
    (state : ChainState)
    (hash : Hash256) : Option Result :=
  (searchActive state hash
      (state.tipHeight.toNat + 2) 0).map fun found =>
    match found with
    | none => throw (invalidParams "block not found")
    | some entry => pure (blockJson entry)

/-
  The bytes of the text are taken in the order they stand
  in.  There is no reply while the search goes on.
-/
def getBlock
    (state : ChainState)
    (args : Json) : Option Result :=
  match arg args 0 "hash" with
  | none =>
      some (throw
        (invalidParams "getblock takes a block hash"))
  | some given =>
      match asBytes given with
      | .error error => some (throw error)
      | .ok bytes =>
          match hash256FromBytes bytes with
          | none =>
              some (throw
                (malformedHex "a block hash is 32 bytes"))
          | some hash => blockReply state hash

------------------------------------------------------------
-- Coins
------------------------------------------------------------

/- What the tip's coins answer, through a store's faults. -/
def getCoin
    (env : ChainEnv)
    (state : ChainState)
    (outpoint : OutPoint) : Option Coin :=
  (state.coins.getCoin (ChainDb.coinsView env.plan) outpoint
    state.db).1

/- A coin, as `gettxout` shows it. -/
def coinJson
    (txid : Hash256)
    (vout : UInt64)
    (coin : Coin) : Json :=
  .object
    [("outpoint",
        .object
          [("txid", .string txid.toHex),
            ("vout", .unsigned vout)]),
      ("amount", .signed coin.output.amount),
      ("height", .ofUInt32 coin.height),
      ("coinbase", .boolean coin.isCoinbase),
      ("lock",
        .object
          [("version",
              .unsigned coin.output.lock.version.toUInt64),
            ("program",
              .string (toHex coin.output.lock.program))])]

/- The index is cut down to the 32 bits an outpoint has. -/
def coinReply
    (env : ChainEnv)
    (state : ChainState)
    (txid : Hash256)
    (vout : UInt64) : Json :=
  match getCoin env state ⟨txid, vout.toUInt32⟩ with
  | none => .null
  | some coin => coinJson txid vout coin

def getTxOut
    (env : ChainEnv)
    (state : ChainState)
    (args : Json) : Result :=
  match arg args 0 "txid", arg args 1 "vout" with
  | some txidArg, some voutArg => do
      let txidHex ← asString txidArg
      match (fromHex txidHex).bind hash256FromBytes with
      | none =>
          throw (malformedHex "txid is 32 bytes hex")
      | some txid =>
          let vout ← asUint voutArg
          pure (coinReply env state txid vout)
  | _, _ =>
      throw (invalidParams "gettxout takes txid and vout")

end Rpc

end Amarian
