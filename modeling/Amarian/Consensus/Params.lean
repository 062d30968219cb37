import Amarian.Consensus.Issuance
import Amarian.Primitives.Block

/-
  The constants that make one network differ from another.

  Ports, message magic and the display name are not read by
  any rule modelled here and are left out.

  Key definitions include:
    * `ChainParams`
    * `paramsFor`
-/

------------------------------------------------------------
-- Limits
------------------------------------------------------------

namespace Amarian

/- The most a block may weigh. -/
def maxBlockWeight : Nat := 2000000

/- How far ahead of the clock a block may be. -/
def maxFutureBlockSeconds : Int64 := 3600

/- How many blocks the median is taken of. -/
def medianTimeSpan : Nat := 11

/- How many elements of a given base size a block can hold. -/
def weightBoundedCount
    (minBaseBytes : Nat) : Nat :=
  maxBlockWeight / (witnessScaleFactor * minBaseBytes)

/- Counts that the weight of a block allows. -/
def consensusTxLimits : TxLimits :=
  { maxInputs := weightBoundedCount 40
    maxOutputs := weightBoundedCount 10
    maxWitnesses := weightBoundedCount 40
    maxLockProgramSize := 128
    maxKeys := 16
    maxKeySize := 4096
    maxSignatures := 16
    maxSignatureSize := 8192
    maxCoinbaseDataSize := 100 }

/- The same for blocks. -/
def consensusBlockLimits : BlockLimits :=
  { maxTransactions := weightBoundedCount 11
    tx := consensusTxLimits }

------------------------------------------------------------
-- Networks
------------------------------------------------------------

/- The networks there are. -/
inductive Network where
  | mainnet
  | testnet
  | regtest
deriving DecidableEq, Repr

/- What networks differ in. -/
structure ChainParams where
  network : Network
  chainId : Hash256
  powLimitBits : UInt32
  genesisBits : UInt32
  genesisTimestamp : Int64
  genesisNonce : UInt64
  targetBlockSeconds : Int64
  asertHalfLifeSeconds : Int64
  coinbaseMaturity : UInt32
  maxBlockWeight : Nat
  blockLimits : BlockLimits
  issuance : IssuanceParams
  allowMinDifficultyBlocks : Bool
  trivialDifficulty : Bool

/- The first bytes of the chain id, never printable. -/
def magicFromChainId
    (chainId : Hash256) : ByteVec :=
  match chainId.bytes.take 4 with
  | [] => []
  | first :: rest => (first ||| 0x80) :: rest

def mainnetChainId : Hash256 :=
  Bytes32.ofList
    [0x4C, 0x6C, 0x27, 0xEC, 0x0A, 0xA1, 0xB5, 0x9E,
      0x12, 0x5E, 0x4B, 0x9D, 0xAE, 0x51, 0x55, 0x99,
      0x30, 0xEF, 0xDE, 0xC0, 0x1A, 0xD1, 0xA6, 0xE0,
      0x35, 0x0F, 0x66, 0x76, 0x9D, 0x6A, 0x8B, 0xB9]

def testnetChainId : Hash256 :=
  Bytes32.ofList
    [0xE2, 0x9A, 0x85, 0xD4, 0x36, 0x91, 0x6C, 0xF8,
      0x6E, 0x92, 0x07, 0x4F, 0x76, 0xF3, 0x0B, 0x4A,
      0x7D, 0x7F, 0xAA, 0x5B, 0x07, 0x4C, 0xBA, 0xDE,
      0xB5, 0x9D, 0xA8, 0x28, 0xA5, 0xF4, 0x67, 0xFE]

def regtestChainId : Hash256 :=
  Bytes32.ofList
    [0x75, 0xB9, 0xD4, 0xC0, 0x43, 0xF1, 0xDD, 0x98,
      0x8B, 0x02, 0x03, 0x5A, 0x28, 0xC6, 0xA2, 0x26,
      0x74, 0x1C, 0x9F, 0x91, 0xEF, 0xC3, 0x5B, 0xD3,
      0xCD, 0xE7, 0x65, 0x53, 0xE0, 0x1F, 0xA5, 0xCC]

/- The easiest target of the public networks. -/
def powLimitBits : UInt32 := 0x1D00FFFF

/- Every second hash meets this one. -/
def regtestPowLimitBits : UInt32 := 0x207FFFFF

/- When the chain begins. -/
def genesisTimestamp : Int64 := 1788598800

/- The parameters of the main network. -/
def mainnetParams : ChainParams :=
  { network := .mainnet
    chainId := mainnetChainId
    powLimitBits := powLimitBits
    genesisBits := powLimitBits
    genesisTimestamp := genesisTimestamp
    genesisNonce := 570575708
    targetBlockSeconds := 300
    asertHalfLifeSeconds := 172800
    coinbaseMaturity := 200
    maxBlockWeight := maxBlockWeight
    blockLimits := consensusBlockLimits
    issuance := mainnetIssuance
    allowMinDifficultyBlocks := false
    trivialDifficulty := false }

/- Those of the test network. -/
def testnetParams : ChainParams :=
  { network := .testnet
    chainId := testnetChainId
    powLimitBits := powLimitBits
    genesisBits := powLimitBits
    genesisTimestamp := genesisTimestamp
    genesisNonce := 2119016593
    targetBlockSeconds := 300
    asertHalfLifeSeconds := 3600
    coinbaseMaturity := 200
    maxBlockWeight := maxBlockWeight
    blockLimits := consensusBlockLimits
    issuance :=
      { eraBlocks := mainnetIssuance.eraBlocks / 100
        initialReward := mainnetIssuance.initialReward }
    allowMinDifficultyBlocks := true
    trivialDifficulty := false }

/- Blocks are free here, and coinbases mature soon. -/
def regtestParams : ChainParams :=
  { network := .regtest
    chainId := regtestChainId
    powLimitBits := regtestPowLimitBits
    genesisBits := regtestPowLimitBits
    genesisTimestamp := genesisTimestamp
    genesisNonce := 3
    targetBlockSeconds := 300
    asertHalfLifeSeconds := 3600
    coinbaseMaturity := 20
    maxBlockWeight := maxBlockWeight
    blockLimits := consensusBlockLimits
    issuance :=
      { eraBlocks := mainnetIssuance.eraBlocks / 1000
        initialReward := mainnetIssuance.initialReward }
    allowMinDifficultyBlocks := true
    trivialDifficulty := true }

/- The parameters of a network. -/
def paramsFor : Network → ChainParams
  | .testnet => testnetParams
  | .regtest => regtestParams
  | .mainnet => mainnetParams

end Amarian
