import Amarian.Chain.ActiveChain
import Amarian.Chain.Invariant
import Amarian.Rpc.Dispatch

/-
  When the identifiers a node prints lead back to what they
  were printed for.

  Identifiers are printed in the order for display and read
  in the internal one, so that a request asks about the
  reverse of what its text names.

  Key definitions include:
    * `Bytes32.Palindromic`
    * `Rpc.NamesNoCoin`

  Key theorems include:
    * `Rpc.getBlock_iff`
    * `Rpc.getTxOut_coin_iff`
    * `Rpc.getTxOut_null_iff`
    * `Rpc.identifiers_iff`
-/

------------------------------------------------------------
-- Finding A Block
------------------------------------------------------------

namespace Amarian

/- Reads the same in both byte orders. -/
def Bytes32.Palindromic
    (value : Bytes32) : Prop :=
  value.reversed = value

instance
    (value : Bytes32) :
    Decidable value.Palindromic := by
  unfold Bytes32.Palindromic
  infer_instance

namespace Rpc

variable {env : ChainEnv} {state : ChainState}

theorem searchActive_hash
    {hash : Hash256}
    {fuel : Nat}
    {height : UInt32}
    {entry : BlockIndexEntry}
    (hSearch :
      searchActive state hash fuel height =
        some (some entry)) :
    entry.hash = hash := by
  induction fuel generalizing height with
  | zero => cases hSearch
  | succ fuel ih =>
      unfold searchActive at hSearch
      split at hSearch
      · split at hSearch
        · split at hSearch
          · cases hSearch
            assumption
          · exact ih hSearch
        · exact ih hSearch
      · cases hSearch

/-
  By induction on the fuel: the block the search is after
  lies at or above the height it has come to.
-/
theorem searchActive_found
    (hRooted : Rooted env state)
    {target : UInt32}
    {entry : BlockIndexEntry}
    (hEntry : state.entryAt target = some entry)
    {fuel : Nat}
    {height : UInt32}
    (hHeight : height ≤ target)
    (hFuel : target.toNat < height.toNat + fuel) :
    searchActive state entry.hash fuel height =
      some (some entry) := by
  have hTip := hRooted.entryAt_le_tip hEntry
  induction fuel generalizing height with
  | zero =>
      rw [UInt32.le_iff_toNat_le] at hHeight
      omega
  | succ fuel ih =>
      have hNext :
          height ≠ target →
            searchActive state entry.hash fuel
                (height + 1) =
              some (some entry) := by
        intro hNe
        have hNeNat : height.toNat ≠ target.toNat :=
          fun hSame => hNe (UInt32.toNat_inj.mp hSame)
        have hLt := target.toNat_lt
        rw [UInt32.le_iff_toNat_le] at hHeight
        have hSucc :
            (height + 1).toNat = height.toNat + 1 := by
          rw [UInt32.toNat_add]
          simp only [UInt32.reduceToNat]
          omega
        apply ih
        · rw [UInt32.le_iff_toNat_le]
          omega
        · omega
      rw [searchActive, if_pos (UInt32.le_trans hHeight hTip)]
      cases hHere : state.entryAt height with
      | none =>
          refine hNext ?_
          rintro rfl
          rw [hEntry] at hHere
          cases hHere
      | some other =>
          dsimp only
          split
          · rename_i hHash
            have hOther := (hRooted.entryAt_find hHere).1
            have hFound := (hRooted.entryAt_find hEntry).1
            rw [hHash, hFound, Option.some_inj] at hOther
            rw [hOther]
          · rename_i hHash
            refine hNext ?_
            rintro rfl
            rw [hEntry, Option.some_inj] at hHere
            exact hHash (by rw [hHere])

------------------------------------------------------------
-- Blocks
------------------------------------------------------------

theorem blockJson_hash
    {first second : BlockIndexEntry}
    (hJson : blockJson first = blockJson second) :
    first.hash = second.hash := by
  unfold blockJson at hJson
  simp only [Json.object.injEq, List.cons.injEq,
    Prod.mk.injEq, Json.string.injEq] at hJson
  exact Bytes32.toHex_injective hJson.1.2

theorem getBlockHash_entryAt
    {height : UInt32}
    {entry : BlockIndexEntry}
    (hEntry : state.entryAt height = some entry)
    {ask : Json}
    (hAsk :
      arg ask 0 "height" = some (.unsigned height.toUInt64)) :
    getBlockHash state ask =
      .ok (.string entry.hash.toHex) := by
  have hLe : height.toUInt64 ≤ 0xFFFFFFFF := by
    have hLt := height.toNat_lt
    rw [UInt64.le_iff_toNat_le, UInt32.toNat_toUInt64]
    simp only [UInt64.reduceToNat]
    omega
  simp only [getBlockHash, hAsk, asUint, bind, Except.bind,
    if_pos hLe, UInt32.toUInt32_toUInt64, hEntry]
  rfl

/- A printed hash is looked up the other way round. -/
theorem getBlock_toHex
    {hash : Hash256}
    {args : Json}
    (hArgs : arg args 0 "hash" = some (.string hash.toHex)) :
    getBlock state args =
      blockReply state hash.reversed := by
  have hBytes :
      asBytes (.string hash.toHex) =
        .ok hash.reversed.bytes := by
    simp only [asBytes, asString, Bytes32.toHex,
      fromHex_toHex, bind, Except.bind]
    rfl
  simp only [getBlock, hArgs, hBytes,
    hash256FromBytes_bytes]

theorem blockReply_hash
    {hash : Hash256}
    {entry : BlockIndexEntry}
    (hReply :
      blockReply state hash =
        some (.ok (blockJson entry))) :
    entry.hash = hash := by
  rcases Option.map_eq_some_iff.mp hReply with
    ⟨found, hSearch, hFound⟩
  cases found with
  | none => cases hFound
  | some other =>
      have hHash := searchActive_hash hSearch
      rw [← hHash]
      exact blockJson_hash (Except.ok.inj hFound).symm

theorem blockReply_entryAt
    (hRooted : Rooted env state)
    {height : UInt32}
    {entry : BlockIndexEntry}
    (hEntry : state.entryAt height = some entry) :
    blockReply state entry.hash =
      some (.ok (blockJson entry)) := by
  have hTip := hRooted.entryAt_le_tip hEntry
  rw [UInt32.le_iff_toNat_le] at hTip
  have hSearch :
      searchActive state entry.hash
          (state.tipHeight.toNat + 2) 0 =
        some (some entry) := by
    apply searchActive_found hRooted hEntry UInt32.zero_le
    simp only [UInt32.toNat_zero]
    omega
  rw [blockReply, hSearch]
  rfl

theorem getBlock_iff
    (hRooted : Rooted env state)
    {height : UInt32}
    {entry : BlockIndexEntry}
    (hEntry : state.entryAt height = some entry)
    {args : Json}
    (hArgs :
      arg args 0 "hash" = some (.string entry.hash.toHex)) :
    getBlock state args = some (.ok (blockJson entry)) ↔
      entry.hash.Palindromic := by
  rw [getBlock_toHex hArgs]
  constructor
  · intro hReply
    exact (blockReply_hash hReply).symm
  · intro hSame
    rw [hSame]
    exact blockReply_entryAt hRooted hEntry

------------------------------------------------------------
-- Coins
------------------------------------------------------------

/-
  No outpoint a caller could mean by the pair has a coin: an
  index past 32 bits is that of no output.
-/
def NamesNoCoin
    (env : ChainEnv)
    (state : ChainState)
    (txid : Hash256)
    (vout : UInt64) : Prop :=
  ∀ index : UInt32,
    index.toUInt64 = vout →
      getCoin env state ⟨txid, index⟩ = none

theorem getTxOut_parsed
    {text : String}
    {txid : Hash256}
    {vout : UInt64}
    {args : Json}
    (hText : hash256FromHex text = some txid)
    (hTxid : arg args 0 "txid" = some (.string text))
    (hVout : arg args 1 "vout" = some (.unsigned vout)) :
    getTxOut env state args =
      .ok (coinReply env state txid.reversed vout) := by
  have hParsed :
      (fromHex text).bind hash256FromBytes =
        some txid.reversed := by
    rw [fromHex_of_hash256FromHex hText, Option.bind_some,
      hash256FromBytes_bytes]
  simp only [getTxOut, hTxid, hVout, asString, asUint,
    bind, Except.bind, hParsed]
  rfl

theorem coinJson_txid
    {first second : Hash256}
    {vout other : UInt64}
    {coin found : Coin}
    (hJson :
      coinJson first vout coin =
        coinJson second other found) :
    first = second := by
  unfold coinJson at hJson
  simp only [Json.object.injEq, List.cons.injEq,
    Prod.mk.injEq, Json.string.injEq] at hJson
  exact Bytes32.toHex_injective hJson.1.2.1.2

theorem getTxOut_coin_iff
    {outpoint : OutPoint}
    {coin : Coin}
    (hCoin : getCoin env state outpoint = some coin)
    {args : Json}
    (hTxid :
      arg args 0 "txid" =
        some (.string outpoint.txid.toHex))
    (hVout :
      arg args 1 "vout" =
        some (.unsigned outpoint.index.toUInt64)) :
    getTxOut env state args =
        .ok (coinJson outpoint.txid outpoint.index.toUInt64
          coin) ↔
      outpoint.txid.Palindromic := by
  rw [getTxOut_parsed (hash256FromHex_toHex _) hTxid hVout,
    Except.ok.injEq, coinReply, UInt32.toUInt32_toUInt64]
  constructor
  · intro hReply
    split at hReply
    · cases hReply
    · exact coinJson_txid hReply
  · intro hSame
    rw [Bytes32.Palindromic] at hSame
    simp only [hSame, hCoin]

/- The reply is null where the reversed text has no coin. -/
theorem getTxOut_null_iff
    {text : String}
    {txid : Hash256}
    {vout : UInt64}
    {args : Json}
    (hText : hash256FromHex text = some txid)
    (hTxid : arg args 0 "txid" = some (.string text))
    (hVout : arg args 1 "vout" = some (.unsigned vout)) :
    getTxOut env state args = .ok .null ↔
      getCoin env state ⟨txid.reversed, vout.toUInt32⟩ =
        none := by
  rw [getTxOut_parsed hText hTxid hVout, Except.ok.injEq,
    coinReply]
  constructor
  · intro hReply
    split at hReply
    · assumption
    · cases hReply
  · intro hNone
    rw [hNone]

------------------------------------------------------------
-- Round Trips
------------------------------------------------------------

/- `getblock` of what `getblockhash` prints. -/
def BlocksFoundAgain
    (state : ChainState) : Prop :=
  ∀ height entry, state.entryAt height = some entry →
    ∀ ask,
      arg ask 0 "height" =
          some (.unsigned height.toUInt64) →
        ∃ text,
          getBlockHash state ask = .ok text ∧
            ∀ args, arg args 0 "hash" = some text →
              getBlock state args =
                some (.ok (blockJson entry))

/- `gettxout` of a coin's printed outpoint. -/
def CoinsFoundAgain
    (env : ChainEnv)
    (state : ChainState) : Prop :=
  ∀ outpoint coin, getCoin env state outpoint = some coin →
    ∀ args,
      arg args 0 "txid" =
          some (.string outpoint.txid.toHex) →
        arg args 1 "vout" =
            some (.unsigned outpoint.index.toUInt64) →
          getTxOut env state args =
            .ok (coinJson outpoint.txid
              outpoint.index.toUInt64 coin)

/- `gettxout` of a pair that is no coin's outpoint. -/
def AbsentCoinsNull
    (env : ChainEnv)
    (state : ChainState) : Prop :=
  ∀ text txid vout, hash256FromHex text = some txid →
    NamesNoCoin env state txid vout →
      ∀ args,
        arg args 0 "txid" = some (.string text) →
          arg args 1 "vout" = some (.unsigned vout) →
            getTxOut env state args = .ok .null

/-
  In every state of a run, request by request: when what was
  printed finds the thing again, and when a pair that names
  no coin is answered with null.
-/
theorem identifiers_iff
    (env : ChainEnv)
    (calls : List Call) :
    (∀ height entry,
      (Amarian.run env calls).entryAt height = some entry →
        ∀ ask,
          arg ask 0 "height" =
              some (.unsigned height.toUInt64) →
            ∃ text,
              getBlockHash (Amarian.run env calls) ask =
                  .ok text ∧
                ∀ args, arg args 0 "hash" = some text →
                  (getBlock (Amarian.run env calls) args =
                      some (.ok (blockJson entry)) ↔
                    entry.hash.Palindromic)) ∧
      (∀ outpoint coin,
        getCoin env (Amarian.run env calls) outpoint =
            some coin →
          ∀ args,
            arg args 0 "txid" =
                some (.string outpoint.txid.toHex) →
              arg args 1 "vout" =
                  some (.unsigned
                    outpoint.index.toUInt64) →
                (getTxOut env (Amarian.run env calls)
                      args =
                    .ok (coinJson outpoint.txid
                      outpoint.index.toUInt64 coin) ↔
                  outpoint.txid.Palindromic)) ∧
      ∀ text txid vout,
        hash256FromHex text = some txid →
          NamesNoCoin env (Amarian.run env calls) txid
              vout →
            ∀ args,
              arg args 0 "txid" = some (.string text) →
                arg args 1 "vout" =
                    some (.unsigned vout) →
                  (getTxOut env (Amarian.run env calls)
                        args = .ok .null ↔
                    getCoin env (Amarian.run env calls)
                        ⟨txid.reversed, vout.toUInt32⟩ =
                      none) := by
  have hRooted := Rooted.run env calls
  refine ⟨?_, ?_, ?_⟩
  · intro height entry hEntry ask hAsk
    exact ⟨_, getBlockHash_entryAt hEntry hAsk,
      fun args hArgs => getBlock_iff hRooted hEntry hArgs⟩
  · intro outpoint coin hCoin args hTxid hVout
    exact getTxOut_coin_iff hCoin hTxid hVout
  · intro text txid vout hText hNone args hTxid hVout
    exact getTxOut_null_iff hText hTxid hVout

end Rpc

------------------------------------------------------------
-- One Block On Genesis
------------------------------------------------------------

namespace Sample

def oneBlock : List Call :=
  [.acceptBlock a1 genesisTimestamp, .activateBestChain]

def a1Outpoint : OutPoint :=
  ⟨(coinbase 1 100 1).txid .reference, 0⟩

def a1Coin : Coin :=
  { output := ChainedSpend.anyoneCanSpend 100
    height := 1
    isCoinbase := true }

theorem getCoin_a1 :
    Rpc.getCoin env (run env oneBlock) a1Outpoint =
      some a1Coin := by
  rw [a1Outpoint, reference_eq, env_eq]
  decide +kernel

theorem exists_genesis :
    ∃ entry,
      (run env oneBlock).entryAt 0 = some entry ∧
        entry.hash = genesisHash := by
  apply Option.map_eq_some_iff.mp
  rw [env_eq]
  decide +kernel

theorem namesNoCoin_past_32_bits :
    Rpc.NamesNoCoin env (run env oneBlock)
      a1Outpoint.txid.reversed 0x100000000 := by
  intro index hIndex
  have hLt := index.toNat_lt
  have hNat := congrArg UInt64.toNat hIndex
  simp only [UInt32.toNat_toUInt64, UInt64.reduceToNat]
    at hNat
  omega

/-
  Genesis is not found again, nor is the only coin; and that
  coin is found under its reversed id at an index past all
  of them.
-/
theorem printed_identifiers_lost :
    ¬Rpc.BlocksFoundAgain (run env oneBlock) ∧
      ¬Rpc.CoinsFoundAgain env (run env oneBlock) ∧
      ¬Rpc.AbsentCoinsNull env (run env oneBlock) := by
  have hRooted := Rooted.run env oneBlock
  refine ⟨?_, ?_, ?_⟩
  · intro hFound
    rcases exists_genesis with ⟨entry, hEntry, hHash⟩
    rcases hFound 0 entry hEntry (.array [.unsigned 0]) rfl
      with ⟨text, hText, hBlock⟩
    rw [Rpc.getBlockHash_entryAt hEntry rfl] at hText
    cases hText
    have hSame := (Rpc.getBlock_iff hRooted hEntry rfl).mp
      (hBlock (.array [.string entry.hash.toHex]) rfl)
    rw [hHash] at hSame
    revert hSame
    decide
  · intro hFound
    have hSame := (Rpc.getTxOut_coin_iff getCoin_a1 rfl
      rfl).mp (hFound _ _ getCoin_a1
        (.array
          [.string a1Outpoint.txid.toHex, .unsigned 0])
        rfl rfl)
    revert hSame
    decide +kernel
  · intro hNull
    have hText := hash256FromHex_toHex
      a1Outpoint.txid.reversed
    have hNone := (Rpc.getTxOut_null_iff hText rfl rfl).mp
      (hNull _ _ 0x100000000 hText namesNoCoin_past_32_bits
        (.array
          [.string a1Outpoint.txid.reversed.toHex,
            .unsigned 0x100000000]) rfl rfl)
    rw [Bytes32.reversed_reversed] at hNone
    have hCoin := getCoin_a1
    rw [show a1Outpoint =
      ⟨a1Outpoint.txid, (0x100000000 : UInt64).toUInt32⟩
        from rfl, hNone] at hCoin
    cases hCoin

theorem identifiers_of_one_block :
    (∃ entry text,
      Rpc.getBlockHash (run env oneBlock)
            (.array [.unsigned 0]) = .ok text ∧
        (Rpc.getBlock (run env oneBlock) (.array [text]) =
            some (.ok (Rpc.blockJson entry)) ↔
          entry.hash.Palindromic)) ∧
      (Rpc.getTxOut env (run env oneBlock)
            (.array
              [.string a1Outpoint.txid.toHex,
                .unsigned 0]) =
          .ok (Rpc.coinJson a1Outpoint.txid 0 a1Coin) ↔
        a1Outpoint.txid.Palindromic) ∧
      (Rpc.getTxOut env (run env oneBlock)
            (.array
              [.string a1Outpoint.txid.reversed.toHex,
                .unsigned 0x100000000]) =
          .ok .null ↔
        Rpc.getCoin env (run env oneBlock)
            ⟨a1Outpoint.txid.reversed.reversed, 0⟩ =
          none) := by
  rcases Rpc.identifiers_iff env oneBlock with
    ⟨hBlocks, hCoins, hAbsent⟩
  refine ⟨?_, ?_, ?_⟩
  · rcases exists_genesis with ⟨entry, hEntry, -⟩
    rcases hBlocks 0 entry hEntry (.array [.unsigned 0]) rfl
      with ⟨text, hText, hBlock⟩
    refine ⟨entry, text, hText, hBlock (.array [text]) ?_⟩
    rw [Rpc.getBlockHash_entryAt hEntry rfl] at hText
    cases hText
    rfl
  · exact hCoins _ _ getCoin_a1 _ rfl rfl
  · exact hAbsent _ _ 0x100000000
      (hash256FromHex_toHex _) namesNoCoin_past_32_bits
      _ rfl rfl

end Sample

end Amarian
