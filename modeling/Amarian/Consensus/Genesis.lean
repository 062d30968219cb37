import Amarian.Consensus.Params

/-
  The genesis block, rebuilt from a network's parameters.

  Key definitions include:
    * `buildGenesisBlock`
-/

------------------------------------------------------------
-- Genesis
------------------------------------------------------------

namespace Amarian

/- What the first coinbase says. -/
def genesisMessage : String :=
  "Reuters 05/Sep/2026 Philippine VP Duterte posts bail after arrest order"

/-
  No reward, one output nobody can ever spend, and the dated
  message in the bytes that take the place of a witness.
-/
def buildGenesisCoinbase
    (params : ChainParams) : Transaction :=
  { version := 1
    inputs := [makeCoinbaseInput 0]
    outputs :=
      [{ amount := 0
         lock :=
          { version := lockVersionUnspendable
            program := params.chainId.bytes } }]
    locktime := 0
    witnesses := []
    coinbaseData := asciiBytes genesisMessage }

/- One coinbase, which nobody can spend. -/
def buildGenesisBlock
    (c : Crypto)
    (params : ChainParams) : Block :=
  let transactions := [buildGenesisCoinbase params]
  { header :=
      { version := 1
        height := 0
        prevBlock := Bytes32.zero
        merkleRoot :=
          (computeMerkleRoot c
            (transactions.map
              (Transaction.wtxid c))).getD Bytes32.zero
        timestamp := params.genesisTimestamp
        targetBits := params.genesisBits
        nonce := params.genesisNonce }
    transactions := transactions }

end Amarian
