import Amarian.Chain.Passes
import Amarian.Crypto.Sha256

/-
  The invariant of a chain state over whole runs.

  Key definitions include:
    * `ChainInvariant`

  Key theorems include:
    * `chainInvariant_run`
-/

------------------------------------------------------------
-- The Invariant
------------------------------------------------------------

namespace Amarian

/-
  The active chain is a path of parent links from the tip
  down to genesis, every block above genesis can be read and
  reverted, the coins are what connecting the stored bodies
  gives, and activation returns without an error.
-/
structure ChainInvariant
    (env : ChainEnv)
    (state : ChainState) : Prop where
  bottom :
    state.chain.getLast? = some state.index.genesis
  linked :
    state.chain.IsChain fun child parent =>
      ∃ entry,
        state.index.find child = some entry ∧
          entry.parent = some parent
  placed :
    ∀ hash ∈ state.chain,
      ∃ entry,
        state.index.find hash = some entry ∧
          ActiveChain.contains state.chain entry.toLink =
            true
  stored :
    ∀ hash ∈ state.chain,
      hash ≠ state.index.genesis →
        (state.db.records.blocks hash).isSome = true ∧
          (state.db.records.undo hash).isSome = true
  coins :
    ∃ bodies undos,
      state.chain.dropLast.reverse.map
            state.db.records.blocks =
          bodies.map some ∧
        (connectBlocks env.crypto env.params
          (.ofSet Utxo.empty) bodies .empty ()).1.1 =
          .ok undos ∧
        ∀ outpoint,
          (state.coins.getCoin (ChainDb.coinsView env.plan)
              outpoint state.db).1 =
            (connectBlocks env.crypto env.params
              (.ofSet Utxo.empty) bodies .empty
              ()).1.2.lookups Utxo.empty outpoint
  activates :
    ∃ summary,
      ((activateBestChain env).run state).1 =
        .ok (some summary)

namespace LiveState

variable {env : ChainEnv} {state : ChainState}

/- What the coins answer when no read can fail. -/
theorem getCoin_eq
    (hCalm : Calm env.plan)
    (state : ChainState)
    (outpoint : OutPoint) :
    (state.coins.getCoin (ChainDb.coinsView env.plan)
        outpoint state.db).1 =
      state.utxo outpoint := by
  have hAnswers := CoinsCache.onto_answers
    (coinsView_answers_calm hCalm
      (state.db.records, state.db.faulted))
    state.coins outpoint
  exact ((hAnswers.1 state.db rfl).2 rfl).2

theorem mem_dropLast
    {hash genesis : Hash256}
    {chain : List Hash256}
    (hLast : chain.getLast? = some genesis)
    (hHash : hash ∈ chain)
    (hNot : hash ≠ genesis) :
    hash ∈ chain.dropLast := by
  rw [← List.dropLast_append_getLast? genesis hLast,
    List.mem_append, List.mem_singleton] at hHash
  exact hHash.resolve_right hNot

theorem chainInvariant
    (hPlan : Reliable env.plan)
    (hLive : LiveState env state) :
    ChainInvariant env state := by
  have hSound := hLive.sound
  have hIndex := hSound.ok.index
  have hTree := hIndex.tree
  rcases hLive.exists_tip with ⟨tip, hTip, hHash, hChain⟩
  have hSynced := hSound.ok.ledger.synced
    (Or.inl hPlan.calm)
  have hBottom :
      state.chain.getLast? = some state.index.genesis := by
    rw [hChain, hTree.branch_getLast hTip, hIndex.genesis]
  have hFind :
      ∀ link ∈ state.index.tree,
        ∃ entry,
          state.index.find link.hash = some entry ∧
            entry.toLink = link := by
    intro link hLink
    rcases List.mem_map.mp hLink with ⟨entry, hEntry, rfl⟩
    exact ⟨entry, hIndex.find_of_mem hEntry, rfl⟩
  refine ⟨hBottom, ?_, ?_, ?_, ?_, ?_⟩
  · rw [hChain]
    refine (hTree.branch_isChain hTip).imp ?_
    rintro child parent ⟨link, hLink, rfl, hParent⟩
    rcases hFind link hLink with ⟨entry, hFound, rfl⟩
    exact ⟨entry, hFound, hParent⟩
  · intro hash hMember
    rw [hChain, branch, List.mem_map] at hMember
    rcases hMember with ⟨link, hLink, rfl⟩
    have hInTree := Arrival.mem_of_mem_lineage hLink
    rcases hFind link hInTree with ⟨entry, hFound, rfl⟩
    refine ⟨entry, hFound, ?_⟩
    rcases hTree.grown.lineage_suffix hTip entry.toLink hLink with
      ⟨above, hAbove⟩
    rw [hChain, branch, ancestry, ← hAbove, List.map_append]
    exact contains_fork hTree hInTree
  · intro hash hMember hNot
    have hAbove := mem_dropLast hBottom hMember hNot
    refine ⟨?_, hSynced.undo hash hAbove⟩
    rcases connectBlocks_of_replay (hSound.synced hPlan.calm) with
      ⟨bodies, undos, hBodies, -⟩
    have hBody :
        state.db.records.blocks hash ∈ bodies.map some := by
      rw [← hBodies]
      exact List.mem_map_of_mem (List.mem_reverse.mpr hAbove)
    rcases List.mem_map.mp hBody with ⟨block, -, hBlock⟩
    rw [← hBlock]
    rfl
  · rcases connectBlocks_of_replay (hSound.synced hPlan.calm) with
      ⟨bodies, undos, hBodies, hDone, hCoins⟩
    refine ⟨bodies, undos, hBodies, hDone, ?_⟩
    intro outpoint
    rw [getCoin_eq hPlan.calm, CoinsCache.lookups_eq, hCoins]
  · exact (activateBestChain_spec hPlan hLive).1

end LiveState

/-
  Over a store that refuses nothing the invariant holds in
  every state that any calls lead to.
-/
theorem chainInvariant_run
    (env : ChainEnv)
    (hPlan : Reliable env.plan)
    (calls : List Call) :
    ChainInvariant env (run env calls) :=
  (LiveState.run hPlan calls).chainInvariant hPlan

/-
  Blocks of the regression-test network: one block `a1` on
  genesis, and two other branches `b1`, `b2` and `c1`, `c2`.
  The second block of the first of them pays too much.
-/
namespace Sample

/- Pays anyone; the tag tells branches apart. -/
def coinbase
    (height : UInt32)
    (amount : Int64)
    (tag : UInt8) : Transaction :=
  { version := 1
    inputs := [makeCoinbaseInput height]
    outputs := [ChainedSpend.anyoneCanSpend amount]
    locktime := 0
    witnesses := []
    coinbaseData := [tag] }

/- A block with a coinbase alone. -/
def block
    (height : UInt32)
    (prevBlock merkleRoot : Hash256)
    (timestamp : Int64)
    (nonce : UInt64)
    (amount : Int64)
    (tag : UInt8) : Block :=
  { header :=
      { version := 1
        height
        prevBlock
        merkleRoot
        timestamp
        targetBits := regtestPowLimitBits
        nonce }
    transactions := [coinbase height amount tag] }

def genesisHash : Hash256 :=
  .ofList
    [103, 169, 189, 55, 98, 186, 122, 112, 28, 63, 44, 136,
      46, 207, 58, 202, 251, 30, 76, 164, 247, 99, 154, 253,
      150, 193, 97, 167, 47, 141, 36, 2]

/- The first block of the first branch. -/
def a1 : Block :=
  block 1 genesisHash
    (.ofList
      [118, 42, 233, 59, 27, 100, 254, 43, 20, 125, 7, 164,
        135, 217, 152, 79, 58, 205, 136, 70, 235, 118, 120,
        0, 6, 253, 114, 69, 139, 49, 229, 104])
    (genesisTimestamp + 300) 0 100 1

def a1Hash : Hash256 :=
  .ofList
    [224, 69, 203, 106, 72, 64, 56, 225, 243, 217, 50, 205,
      180, 8, 160, 157, 26, 245, 242, 123, 59, 213, 1, 171,
      221, 192, 37, 32, 104, 34, 172, 41]

/- The first block of the second branch. -/
def b1 : Block :=
  block 1 genesisHash
    (.ofList
      [195, 165, 131, 191, 221, 99, 63, 93, 110, 117, 160,
        174, 243, 195, 108, 206, 172, 157, 165, 165, 144,
        213, 144, 73, 155, 89, 26, 177, 202, 119, 40, 65])
    (genesisTimestamp + 300) 3 100 2

def b1Hash : Hash256 :=
  .ofList
    [137, 143, 186, 240, 2, 153, 20, 137, 184, 56, 128, 245,
      7, 101, 90, 208, 7, 27, 11, 197, 204, 204, 207, 53,
      107, 80, 2, 220, 81, 180, 236, 87]

/- Its child, which pays more than its reward. -/
def b2 : Block :=
  block 2 b1Hash
    (.ofList
      [184, 59, 125, 72, 99, 180, 158, 14, 122, 70, 26, 6,
        169, 102, 22, 233, 212, 169, 9, 230, 165, 184, 13,
        25, 231, 54, 97, 139, 240, 61, 23, 87])
    (genesisTimestamp + 600) 0 8000000000000000 2

/- The first block of the third branch. -/
def c1 : Block :=
  block 1 genesisHash
    (.ofList
      [73, 185, 250, 55, 253, 81, 45, 159, 218, 224, 2, 149,
        154, 30, 73, 150, 177, 106, 31, 204, 166, 231, 221,
        111, 96, 146, 40, 69, 180, 85, 23, 43])
    (genesisTimestamp + 300) 1 100 3

def c1Hash : Hash256 :=
  .ofList
    [178, 63, 173, 144, 78, 168, 91, 247, 115, 47, 92, 232,
      145, 58, 165, 234, 21, 0, 108, 119, 232, 76, 176, 242,
      135, 115, 162, 204, 212, 24, 175, 107]

/- Its child. -/
def c2 : Block :=
  block 2 c1Hash
    (.ofList
      [59, 143, 186, 223, 246, 109, 101, 95, 18, 29, 115,
        175, 81, 138, 130, 108, 31, 40, 157, 217, 253, 58,
        5, 107, 234, 146, 113, 192, 96, 246, 185, 35])
    (genesisTimestamp + 600) 2 100 3

def c2Hash : Hash256 :=
  .ofList
    [34, 29, 90, 170, 243, 61, 37, 176, 188, 36, 138, 196,
      219, 231, 228, 231, 102, 80, 251, 231, 120, 152, 171,
      24, 92, 119, 33, 62, 211, 125, 103, 65]

/- A regtest node whose store never fails. -/
def env : ChainEnv :=
  { crypto := .reference
    params := regtestParams
    hasSink := true
    plan := fun _ _ => false }

/- A digest from its number, the first byte the highest. -/
def digestOf
    (number : Nat) : Hash256 :=
  .ofList (Sha256.bigEndian 32 number)

def leafTagDigest : Hash256 :=
  digestOf
    0x58d4fc0996190776f3f356ea697b22a0af041ea9713f7a355ada993182633ae6

def rootTagDigest : Hash256 :=
  digestOf
    0xeb133e0ae5e6b21484d67cd6f692fc25c768761ec3e9eacbe884a0c82c750add

/- The digests of the tags. -/
def tagDigests : List (ByteVec × Hash256) :=
  [(asciiBytes merkleLeafTag, leafTagDigest),
    (asciiBytes merkleRootTag, rootTagDigest)]

/-
  What is hashed for a block of one transaction, with its
  digests: the header and the transaction without and with
  its witnesses, each hashed twice, the leaf and the root.
-/
def blockDigests
    (block : Block)
    (numbers : List Nat) : List (ByteVec × Hash256) :=
  match block.transactions, numbers.map digestOf with
  | [tx], [header, hash, stripped, txid, whole, wtxid, leaf,
      root] =>
      [(block.header.serialize, header),
        (header.bytes, hash),
        (tx.serializeWithoutWitnesses, stripped),
        (stripped.bytes, txid),
        (tx.serialize, whole),
        (whole.bytes, wtxid),
        (leafTagDigest.bytes ++ leafTagDigest.bytes ++
          wtxid.bytes, leaf),
        (rootTagDigest.bytes ++ rootTagDigest.bytes ++
          (writeCompactSize 1 ++ leaf.bytes), root)]
  | _, _ => []

/- Genesis, with its Merkle root written out. -/
def genesisBlock : Block :=
  { header :=
      { version := 1
        height := 0
        prevBlock := Bytes32.zero
        merkleRoot :=
          digestOf
            0xaad0a745da767935fdf5ee3315c6cd66e9f8673720372613238f708c56e4f833
        timestamp := regtestParams.genesisTimestamp
        targetBits := regtestParams.genesisBits
        nonce := regtestParams.genesisNonce }
    transactions := [buildGenesisCoinbase regtestParams] }

def genesisDigests : List (ByteVec × Hash256) :=
  blockDigests genesisBlock
    [0xbb5e009bc04d33afd59152c0375007d23df58bf7f457d253a76983c21e5a4114,
      0x67a9bd3762ba7a701c3f2c882ecf3acafb1e4ca4f7639afd96c161a72f8d2402,
      0x700ea930af13451115325f37a28041729206117d2357d32080d31020558dc21f,
      0x0b4b0e4c211ad33f85b27055d170466250cf2aba06f8687daf2f209791fb044b,
      0xc7dce29fc0fb9d39e3273d9e2af347d4c99aa59fe8c3ad57b294ea7825feee62,
      0x21f8d22d19a501c2efee914271befb2041075ce3d83b458054b1df3fa86165aa,
      0xb8d3dc68ff96da7922929780d1a112271978db055b30cdf1756e7a173802f802,
      0xaad0a745da767935fdf5ee3315c6cd66e9f8673720372613238f708c56e4f833]

def a1Digests : List (ByteVec × Hash256) :=
  blockDigests a1
    [0x8d4447145af018c495d57296743542fabfa5e0ec8371906cec390040ec6e4c5f,
      0xe045cb6a484038e1f3d932cdb408a09d1af5f27b3bd501abddc025206822ac29,
      0xcb28162d838480634fe0910163bbdbf93249d116a0d4aa0ccdf3a9060b31a4f9,
      0x2d526408923598467056045e6b551a5e14478ffab9b3e9187a0add4f7695a59e,
      0x7b3d0e8ae13a4f501157b5b679e4c00894424088eaad738e278db8a89b822d66,
      0x788dee916006e6121ddfa761a0818a2e059cf9ad4e41679fbe30ecf92b794374,
      0x0bd67b5844b87f00100a7e8659c66eb96e79d440669304f0cc877fd5a8bdfd2b,
      0x762ae93b1b64fe2b147d07a487d9984f3acd8846eb76780006fd72458b31e568]

def b1Digests : List (ByteVec × Hash256) :=
  blockDigests b1
    [0xb13e11c49d960c7c6ec2442c960c0f6c1ecf2edebb7037d73551690e7db5c2ff,
      0x898fbaf002991489b83880f507655ad0071b0bc5cccccf356b5002dc51b4ec57,
      0xcb28162d838480634fe0910163bbdbf93249d116a0d4aa0ccdf3a9060b31a4f9,
      0x2d526408923598467056045e6b551a5e14478ffab9b3e9187a0add4f7695a59e,
      0x95371cc66a0bf59a8fd25dfe3b6414733e53850beadc1f17bc30fc4b068df125,
      0x0036880dc25fed7a4706ca6cc92dbe741434a30d076542458896995440e81627,
      0x3e735a8f9014abc9f8a5675955deb4e90ea54bdf4ebe95b4d62c355e36975a7b,
      0xc3a583bfdd633f5d6e75a0aef3c36cceac9da5a590d590499b591ab1ca772841]

def b2Digests : List (ByteVec × Hash256) :=
  blockDigests b2
    [0xec12929c3122d6f2804450a79fa3d1deaebbbfb1959e1d1f0ba591acf6a3763d,
      0x0d5005dc061a806fac16c5ccc19d933da9e3beadfa240c6fee041d79ce576446,
      0x43736a63876e2c726861f96b9820bda051e9ff2d7ace877700a1a757cfd41f78,
      0x2644114a810296d773e229d12fb4e60eb235f7ab6282e8fa4104a39575951de3,
      0xb1ff787f9ee985b5eb7e5c689acfe4ced5dfa0ca51c87fea19d912b5227f0944,
      0x0ba71148fc632dff22f32439c8b70ef4a2bb20980762933571892e5e7f27f064,
      0x737bc35266f8fef74120220263527983b5a7f654a735a4081a09cf206b87921c,
      0xb83b7d4863b49e0e7a461a06a96616e9d4a909e6a5b80d19e736618bf03d1757]

def c1Digests : List (ByteVec × Hash256) :=
  blockDigests c1
    [0xe33c645b76ee4a2384c0d89c1cd35b0b2c397314f3638aaab5af884e22d150ad,
      0xb23fad904ea85bf7732f5ce8913aa5ea15006c77e84cb0f28773a2ccd418af6b,
      0xcb28162d838480634fe0910163bbdbf93249d116a0d4aa0ccdf3a9060b31a4f9,
      0x2d526408923598467056045e6b551a5e14478ffab9b3e9187a0add4f7695a59e,
      0x50b7556d47e8eed4902d127b37496c6343fbc27ada222273747433e6743b3bc5,
      0x4439ba0531507712171df0ae90f4b3c9d2b8ac2ad719fd498b99566e4eb12c69,
      0x617a929a03721df4079eefdb96e66cdb50d033f25734e59536c92845c75ecc3c,
      0x49b9fa37fd512d9fdae002959a1e4996b16a1fcca6e7dd6f60922845b455172b]

def c2Digests : List (ByteVec × Hash256) :=
  blockDigests c2
    [0x2feb468ed899bf94dd4a83de2553a8308671b2ba48792e9c970ee9ccb9ae4c69,
      0x221d5aaaf33d25b0bc248ac4dbe7e4e76650fbe77898ab185c77213ed37d6741,
      0x7bca1eab859444afd5c29531bc5206b509d6ed37a95bb1e4a501f84e8a47e694,
      0xe614bc6871cd55c622896f2dde520bb8e937e31b743cf5ea5476e2ac05c5bed3,
      0xca61851cfdafe67fde87bcd71392e5a7302068f633b9d1a1e580473531299296,
      0x34cc580bbbac2127147037c590357fc541cb8f1946ad9cd07e13ae32f06d9da6,
      0x1441d011683a0bf3e341c2391a95727623a44bb34871ce9ac88072dc09503ebf,
      0x3b8fbadff66d655f121d73af518a826c1f289dd9fd3a056bea9271c060f6b923]

/- All digests that the blocks take. -/
def digests : List (ByteVec × Hash256) :=
  tagDigests ++ genesisDigests ++ a1Digests ++ b1Digests ++
    b2Digests ++ c1Digests ++ c2Digests

theorem digests_recalled :
    Crypto.Recalls digests := by
  refine .append (.append (.append (.append (.append (.append
    ?_ ?_) ?_) ?_) ?_) ?_) ?_
  all_goals decide +kernel

theorem reference_eq :
    Crypto.reference = .recalling digests :=
  Crypto.reference_eq_recalling digests_recalled

/- The same node, with its digests looked up. -/
def recalledEnv : ChainEnv :=
  { env with crypto := .recalling digests }

theorem env_eq :
    env = recalledEnv := by
  rw [recalledEnv, ← reference_eq]
  rfl

/- The second branch takes over from the first block. -/
def reorganisation : List Call :=
  [.acceptBlock a1 genesisTimestamp, .activateBestChain,
    .acceptBlock c1 genesisTimestamp,
    .acceptBlock c2 genesisTimestamp, .activateBestChain]

theorem chainInvariant_reorganisation :
    (run env reorganisation).tip = c2Hash ∧
      ChainInvariant env (run env reorganisation) :=
  ⟨by rw [env_eq]; decide +kernel,
    chainInvariant_run env (fun _ _ => rfl) reorganisation⟩

end Sample

end Amarian
