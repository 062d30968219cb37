import Amarian.Primitives.Codec
import Amarian.Utxo.Outcome
import Amarian.Utxo.Reversal

/-
  The encoding of coins and of undo records.

  Key definitions include:
    * `Coin.deserialize`
    * `TxUndo.deserialize`
    * `BlockUndo.deserialize`
    * `BlockUndo.Fits`

  Key theorems include:
    * `BlockUndo.deserialize_canonical`
    * `Utxo.connectBlock_undo_fits`
    * `undo_readsBack`
-/

------------------------------------------------------------
-- Coins
------------------------------------------------------------

namespace Amarian

open Codec

/- With an output as short as can be. -/
def Coin.minSerializedSize : Nat :=
  4 + 1 + TxOutput.minSerializedSize

/- Zero or one. -/
def writeFlag
    (flag : Bool) : ByteVec :=
  writeU8 (if flag then 1 else 0)

/- Exactly 0 or 1, so that a flag has one encoding. -/
def readFlagByte : Decoder UInt8 UInt8 := do
  let flag ← readU8
  if decide (flag > 1) then Decoder.fail else pure flag

/- Any other byte is refused. -/
def readFlag : Decoder UInt8 Bool := do
  let flag ← readFlagByte
  pure (flag == 1)

theorem readFlag_canonical :
    Canonical writeFlag readFlag fun _ => True := by
  have hByte :
      Canonical writeU8 readFlagByte fun flag =>
        True ∧ decide (flag > 1) = false :=
    readU8_canonical.guard
  unfold readFlag
  change Canonical
    (fun flag => writeU8 (if flag = true then 1 else 0)) _ _
  apply hByte.map
  · rintro flag ⟨-, hFlag⟩
    have hBit : flag = 0 ∨ flag = 1 := by
      rw [decide_eq_false_iff_not, gt_iff_lt,
        UInt8.lt_iff_toNat_lt] at hFlag
      rw [← UInt8.toNat_inj, ← UInt8.toNat_inj]
      change ¬1 < flag.toNat at hFlag
      change flag.toNat = 0 ∨ flag.toNat = 1
      omega
    rcases hBit with rfl | rfl <;> decide
  · decide

/- The height, the flag, then the output. -/
def Coin.serialize
    (coin : Coin) : ByteVec :=
  writeU32 coin.height ++ writeFlag coin.isCoinbase ++
    coin.output.serialize

/- The fields in the order they are written. -/
def Coin.deserialize
    (maxLockProgramSize : Nat) : Decoder UInt8 Coin := do
  let height ← readU32
  let isCoinbase ← readFlag
  let output ← TxOutput.deserialize maxLockProgramSize
  pure
    { output := output
      height := height
      isCoinbase := isCoinbase }

/- The output is within its limits. -/
def Coin.Fits
    (maxLockProgramSize : Nat)
    (coin : Coin) : Prop :=
  coin.output.Fits maxLockProgramSize

theorem Coin.deserialize_canonical
    (maxLockProgramSize : Nat) :
    Canonical Coin.serialize
      (Coin.deserialize maxLockProgramSize)
      (Coin.Fits maxLockProgramSize) := by
  have hFields :
      Canonical
        (fun coin : Coin =>
          writeU32 coin.height ++
            (writeFlag coin.isCoinbase ++
              (coin.output.serialize ++ [])))
        (Coin.deserialize maxLockProgramSize)
        (Coin.Fits maxLockProgramSize) := by
    apply Canonical.step Coin.height
      readU32_canonical fun _ _ => trivial
    intro height _
    apply Canonical.step Coin.isCoinbase
      readFlag_canonical fun _ _ => trivial
    intro isCoinbase _
    apply Canonical.step Coin.output
      (TxOutput.deserialize_canonical maxLockProgramSize)
      fun _ hFits => hFits.1.1
    intro output hOutput
    apply Canonical.done ⟨⟨⟨hOutput, rfl⟩, rfl⟩, rfl⟩
    rintro coin ⟨⟨⟨-, rfl⟩, rfl⟩, rfl⟩
    rfl
  apply Canonical.congr (fun _ => Iff.rfl) _ hFields
  intro coin _
  rw [Coin.serialize, List.append_nil, List.append_assoc]

theorem Coin.minSerializedSize_le
    (coin : Coin) :
    Coin.minSerializedSize ≤ coin.serialize.length := by
  have hOutput := coin.output.minSerializedSize_le
  simp only [Coin.serialize, writeU32, writeFlag, writeU8,
    List.length_append, length_littleEndian,
    List.length_singleton, Coin.minSerializedSize]
  omega

------------------------------------------------------------
-- Undo Records
------------------------------------------------------------

/- The coins that the inputs spent. -/
def TxUndo.serialize
    (undo : TxUndo) : ByteVec :=
  writeList Coin.serialize undo.spent

/- No more coins than a transaction has inputs. -/
def TxUndo.deserialize
    (maxInputs maxLockProgramSize : Nat) :
    Decoder UInt8 TxUndo := do
  let spent ←
    readList (Coin.deserialize maxLockProgramSize) maxInputs
      Coin.minSerializedSize
  pure { spent := spent }

/- Neither the coins nor their number is too large. -/
def TxUndo.Fits
    (maxInputs maxLockProgramSize : Nat)
    (undo : TxUndo) : Prop :=
  Sized maxInputs undo.spent.length ∧
    ∀ coin ∈ undo.spent, coin.Fits maxLockProgramSize

theorem TxUndo.deserialize_canonical
    (maxInputs maxLockProgramSize : Nat) :
    Canonical TxUndo.serialize
      (TxUndo.deserialize maxInputs maxLockProgramSize)
      (TxUndo.Fits maxInputs maxLockProgramSize) :=
  Canonical.map
    (readList_canonical
      (Coin.deserialize_canonical maxLockProgramSize)
      (by decide) Coin.minSerializedSize_le maxInputs)
    (fun _ hFits => ⟨hFits, rfl⟩)
    (fun _ hFits => ⟨hFits, rfl⟩)

theorem TxUndo.one_le_length
    (undo : TxUndo) :
    1 ≤ undo.serialize.length := by
  have hCount := length_writeCompactSize_pos undo.spent.length
  rw [TxUndo.serialize, writeList, List.length_append]
  omega

/- One record for each transaction but the coinbase. -/
def BlockUndo.serialize
    (undo : BlockUndo) : ByteVec :=
  writeList TxUndo.serialize undo.transactions

/-
  There is one entry for each transaction after the coinbase,
  so the block's own limit bounds the count.
-/
def BlockUndo.deserialize
    (params : ChainParams) : Decoder UInt8 BlockUndo := do
  let transactions ←
    readList
      (TxUndo.deserialize params.blockLimits.tx.maxInputs
        params.blockLimits.tx.maxLockProgramSize)
      params.blockLimits.maxTransactions 1
  pure { transactions := transactions }

/- What a block of the network leaves behind. -/
def BlockUndo.Fits
    (params : ChainParams)
    (undo : BlockUndo) : Prop :=
  Sized params.blockLimits.maxTransactions
      undo.transactions.length ∧
    ∀ txUndo ∈ undo.transactions,
      txUndo.Fits params.blockLimits.tx.maxInputs
        params.blockLimits.tx.maxLockProgramSize

theorem BlockUndo.deserialize_canonical
    (params : ChainParams) :
    Canonical BlockUndo.serialize
      (BlockUndo.deserialize params)
      (BlockUndo.Fits params) :=
  Canonical.map
    (readList_canonical
      (TxUndo.deserialize_canonical
        params.blockLimits.tx.maxInputs
        params.blockLimits.tx.maxLockProgramSize)
      (by decide) TxUndo.one_le_length
      params.blockLimits.maxTransactions)
    (fun _ hFits => ⟨hFits, rfl⟩)
    (fun _ hFits => ⟨hFits, rfl⟩)

------------------------------------------------------------
-- What Connecting Records
------------------------------------------------------------

namespace Utxo

variable {c : Crypto} {params : ChainParams}
variable {coins after : Utxo} {limit : Nat}

/- Every coin of the set can be read back. -/
def Decodable
    (limit : Nat)
    (coins : Utxo) : Prop :=
  coins.Every fun _ coin => coin.Fits limit

theorem spendInputs_fits
    (hCoins : coins.Decodable limit)
    {inputs : List TxInput}
    {spent : List Coin}
    (hSpend : spendInputs inputs coins = .ok (spent, after)) :
    ∀ coin ∈ spent, coin.Fits limit := by
  induction inputs generalizing coins spent with
  | nil =>
      cases hSpend
      exact fun _ hNone => nomatch hNone
  | cons input inputs ih =>
      rcases spendInputs_cons.mp hSpend with
        ⟨coin, rest, rfl, hFound, hRest⟩
      rw [List.forall_mem_cons]
      refine ⟨hCoins _ _ hFound, ih ?_ hRest⟩
      intro outpoint other hOther
      by_cases hSame : outpoint = input.outpoint
      · rw [hSame, Function.update_self] at hOther
        cases hOther
      · rw [Function.update_of_ne hSame] at hOther
        exact hCoins outpoint other hOther

theorem outputsHold_of_fits
    {limits : TxLimits}
    {tx : Transaction}
    (hFits : tx.Fits limits) :
    OutputsHold c
      (fun _ coin => coin.Fits limits.maxLockProgramSize)
      tx :=
  fun _ _ hOutput =>
    hFits.outputs.2 _ (List.mem_of_getElem? hOutput)

/- By induction, with the coins created on the way. -/
theorem connectSpends_undo_fits
    {limits : TxLimits}
    (hCoins : coins.Decodable limits.maxLockProgramSize)
    {height : UInt32}
    {txs : List Transaction}
    {fees later : Int64}
    {undo : List TxUndo}
    (hTxs : ∀ tx ∈ txs, tx.Fits limits)
    (hConnect :
      connectSpends c params height txs fees coins =
        .ok (undo, later, after)) :
    undo.length = txs.length ∧
      ∀ txUndo ∈ undo,
        txUndo.Fits limits.maxInputs
          limits.maxLockProgramSize := by
  induction txs generalizing coins fees undo with
  | nil =>
      cases hConnect
      exact ⟨rfl, fun _ hNone => nomatch hNone⟩
  | cons tx txs ih =>
      rw [List.forall_mem_cons] at hTxs
      rcases connectSpends_cons.mp hConnect with
        ⟨spent, unspent, fee, feesNow, created, rest, rfl, -,
          hSpend, -, -, hCreate, hRest⟩
      have hCreated : created.Decodable _ :=
        (Every.spendInputs hCoins hSpend).addOutputs
          (outputsHold_of_fits (c := c) hTxs.1) hCreate
      rcases ih hCreated hTxs.2 hRest with ⟨hLength, hAll⟩
      refine ⟨by rw [List.length_cons, List.length_cons,
        hLength], ?_⟩
      rw [List.forall_mem_cons]
      refine ⟨⟨?_, spendInputs_fits hCoins hSpend⟩, hAll⟩
      rw [spendInputs_length hSpend]
      exact hTxs.1.inputs

theorem connectBlock_undo_fits
    (hCoins :
      coins.Decodable
        params.blockLimits.tx.maxLockProgramSize)
    {block : Block}
    {result : ConnectResult}
    (hBlock : block.Fits params.blockLimits)
    (hConnect :
      connectBlock c params block coins =
        .ok (result, after)) :
    result.undo.Fits params := by
  rcases connectBlock_eq_ok.mp hConnect with
    ⟨first, rest, created, hTxs, -, hCreated, hRest, -⟩
  rcases hBlock with ⟨hCount, hFits⟩
  rw [hTxs, List.forall_mem_cons] at hFits
  rw [hTxs, List.length_cons] at hCount
  have hMiddle : created.Decodable _ :=
    Every.addOutputs hCoins
      (outputsHold_of_fits (c := c) hFits.1) hCreated
  rcases connectSpends_undo_fits hMiddle hFits.2 hRest with
    ⟨hLength, hAll⟩
  refine ⟨⟨?_, ?_⟩, hAll⟩
  · rw [hLength]
    exact Nat.le_of_succ_le hCount.within
  · rw [hLength]
    exact Nat.lt_of_succ_lt hCount.counted

end Utxo

section ReadsBack

variable (c : Crypto) (params : ChainParams)

/-
  The record of a block that connected is read back, with
  anything behind it; and whatever is accepted as a record
  was the encoding of that record.
-/
theorem undo_readsBack :
    (∀ set coins block result rest out,
      block.Fits params.blockLimits →
        (∀ outpoint coin,
          CoinsCache.lookups set coins outpoint =
              some coin →
            coin.Fits
              params.blockLimits.tx.maxLockProgramSize) →
        (connectBlock c params (.ofSet set) block coins
            ()).1.1 = .ok result →
          (BlockUndo.deserialize params).into out
              (.ofList (result.undo.serialize ++ rest)) =
            ((true, result.undo), .ofList rest)) ∧
      ReadsBack BlockUndo.serialize
        (BlockUndo.deserialize params)
        (BlockUndo.Fits params) := by
  have hReadsBack :=
    readsBack_of_canonical
      (BlockUndo.deserialize_canonical params)
  refine ⟨?_, hReadsBack⟩
  intro set coins block result rest out hBlock hCoins
    hConnected
  have hDecodable :
      Utxo.Decodable
        params.blockLimits.tx.maxLockProgramSize
        (coins.lookup set) := by
    intro outpoint coin hCoin
    rw [CoinsCache.lookups_eq] at hCoins
    exact hCoins outpoint coin hCoin
  exact hReadsBack.reads _ rest out
    (Utxo.connectBlock_undo_fits hDecodable hBlock
      (connectBlock_ofSet_ok c params hConnected))

end ReadsBack

namespace ChainedSpend

theorem sized_few
    {max count : Nat}
    (hCount : count ≤ 1)
    (hMax : 1 ≤ max) :
    Sized max count :=
  ⟨hCount.trans hMax, by omega⟩

theorem anyoneCanSpend_fits
    {amount : Int64}
    (hAmount : isValidAmount amount = true) :
    (anyoneCanSpend amount).Fits
      regtestParams.blockLimits.tx.maxLockProgramSize :=
  ⟨hAmount, sized_few (Nat.zero_le 1) (by decide)⟩

theorem spendOf_fits
    {outpoint : OutPoint}
    {amount : Int64}
    (hSpends : (spendOf outpoint amount).isCoinbase = false)
    (hAmount : isValidAmount amount = true) :
    (spendOf outpoint amount).Fits
      regtestParams.blockLimits.tx where
  inputs := sized_few (Nat.le_refl 1) (by decide)
  outputs := by
    refine ⟨sized_few (Nat.le_refl 1) (by decide), ?_⟩
    rintro output (_ | ⟨_, ⟨⟩⟩)
    exact anyoneCanSpend_fits hAmount
  witnesses := by
    rw [Transaction.WitnessesFit, hSpends,
      if_neg Bool.false_ne_true]
    refine ⟨rfl, sized_few (Nat.le_refl 1) (by decide), ?_⟩
    rintro witness (_ | ⟨_, ⟨⟩⟩)
    exact
      { condition :=
          ⟨sized_few (Nat.zero_le 1) (by decide),
            List.forall_mem_nil _⟩
        signatures :=
          ⟨sized_few (Nat.zero_le 1) (by decide),
            List.forall_mem_nil _⟩ }

theorem block_fits :
    block.Fits regtestParams.blockLimits := by
  refine ⟨⟨by decide, by decide⟩, ?_⟩
  intro tx hTx
  simp only [block, List.mem_cons, List.not_mem_nil,
    or_false] at hTx
  rcases hTx with rfl | rfl | rfl
  · refine ⟨⟨by decide, by decide⟩, ?_, ?_⟩
    · refine ⟨⟨by decide, by decide⟩, ?_⟩
      rintro output (_ | ⟨_, ⟨⟩⟩)
      exact anyoneCanSpend_fits (by decide)
    · exact ⟨rfl, by decide, by decide⟩
  · exact spendOf_fits (by decide) (by decide)
  · exact spendOf_fits (by decide +kernel) (by decide)

/- The record of that block, and two bytes behind it. -/
theorem undo_readsBack_chained :
    ∃ result,
      (connectBlock .reference regtestParams (.ofSet set)
          block .empty ()).1.1 = .ok result ∧
        (BlockUndo.deserialize regtestParams).into ⟨[]⟩
            (.ofList (result.undo.serialize ++ [1, 2])) =
          ((true, result.undo), .ofList [1, 2]) := by
  rcases except_isOk
    (x := (connectBlock .reference regtestParams
      (.ofSet set) block .empty ()).1.1)
    (by decide +kernel) with
    ⟨result, hConnected⟩
  refine ⟨result, hConnected,
    (undo_readsBack .reference regtestParams).1 set .empty
      block result [1, 2] ⟨[]⟩ block_fits ?_ hConnected⟩
  intro outpoint coin hCoin
  rw [CoinsCache.lookups_eq, CoinsCache.lookup_empty, set]
    at hCoin
  split at hCoin
  · cases hCoin
    exact anyoneCanSpend_fits (by decide)
  · cases hCoin

end ChainedSpend

end Amarian
