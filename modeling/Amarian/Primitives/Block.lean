import Amarian.Primitives.Transaction

/-
  Block headers, blocks and the Merkle root that binds the
  second to the first.

  Key definitions include:
    * `BlockHeader`
    * `BlockHeader.hash`
    * `computeMerkleRoot`
    * `Block`
    * `Block.computeMerkleRoot`
    * `Block.weight`
-/

------------------------------------------------------------
-- Headers
------------------------------------------------------------

namespace Amarian

/- The height is part of what is hashed. -/
structure BlockHeader where
  version : UInt32
  height : UInt32
  prevBlock : Hash256
  merkleRoot : Hash256
  timestamp : Int64
  targetBits : UInt32
  nonce : UInt64
deriving DecidableEq

namespace BlockHeader

/- Every header has the same size. -/
def serializedSize : Nat := 92

def serialize
    (header : BlockHeader) : ByteVec :=
  writeU32 header.version ++
    writeU32 header.height ++
    writeHash256 header.prevBlock ++
    writeHash256 header.merkleRoot ++
    writeI64 header.timestamp ++
    writeU32 header.targetBits ++
    writeU64 header.nonce

def hash
    (c : Crypto)
    (header : BlockHeader) : Hash256 :=
  c.doubleSha256 header.serialize

end BlockHeader

------------------------------------------------------------
-- The Merkle Root
------------------------------------------------------------

/- Leaves, branches and the root have tags of their own. -/
def merkleLeafTag : String := "Amarian/MerkleLeaf"

def merkleBranchTag : String := "Amarian/MerkleBranch"

def merkleRootTag : String := "Amarian/MerkleRoot"

/- Two nodes under the tag for branches. -/
def merkleBranch
    (c : Crypto)
    (left right : Hash256) : Hash256 :=
  c.taggedHash merkleBranchTag (left.bytes ++ right.bytes)

/- One level up: pairs are hashed, an odd node is promoted. -/
def merkleLevel
    (c : Crypto) : List Hash256 → List Hash256
  | left :: right :: rest =>
      merkleBranch c left right :: merkleLevel c rest
  | level => level

/-
  Halve the level until one node is left.  A level of `n`
  nodes is halved at most `n` times.
-/
def merkleTop
    (c : Crypto) : Nat → List Hash256 → List Hash256
  | 0, level => level
  | fuel + 1, level =>
      if level.length > 1 then
        merkleTop c fuel (merkleLevel c level)
      else
        level

/- The root also commits to the number of leaves. -/
def computeMerkleRoot
    (c : Crypto)
    (wtxids : List Hash256) : Option Hash256 :=
  let leaves :=
    wtxids.map fun wtxid =>
      c.taggedHash merkleLeafTag wtxid.bytes
  match merkleTop c leaves.length leaves with
  | [] => none
  | top :: _ =>
      some (c.taggedHash merkleRootTag
        (writeCompactSize wtxids.length ++ top.bytes))

------------------------------------------------------------
-- Blocks
------------------------------------------------------------

/- Bounds on decoding one block. -/
structure BlockLimits where
  maxTransactions : Nat
  tx : TxLimits
deriving DecidableEq

/- A header with the transactions it commits to. -/
structure Block where
  header : BlockHeader
  transactions : List Transaction
deriving DecidableEq

namespace Block

def serialize
    (block : Block) : ByteVec :=
  block.header.serialize ++
    writeList Transaction.serialize block.transactions

def hash
    (c : Crypto)
    (block : Block) : Hash256 :=
  block.header.hash c

/- The root binds the number of leaves as well. -/
def computeMerkleRoot
    (c : Crypto)
    (block : Block) : Option Hash256 :=
  Amarian.computeMerkleRoot c
    (block.transactions.map (Transaction.wtxid c))

/-
  Everything outside the transactions is base size, so it is
  scaled; each transaction contributes its own weight.
-/
def weight
    (block : Block) : Nat :=
  (BlockHeader.serializedSize +
      compactSizeLen block.transactions.length) *
    witnessScaleFactor +
    (block.transactions.map Transaction.weight).sum

end Block

end Amarian
