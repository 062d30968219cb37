import Amarian.Mining.Line
import Amarian.Wallet.OnChain
import Amarian.Wallet.Payment

/-
  When the node of a wallet takes what the wallet sends.

  Key definitions include:
    * `Wallet.Redeemable`
    * `Wallet.Sendable`
    * `Wallet.GoodPayment`

  Key theorems include:
    * `Wallet.Made.good_iff`
    * `Wallet.send_good_iff`
-/

------------------------------------------------------------
-- When It Is Good
------------------------------------------------------------

namespace Amarian

namespace Wallet

section Sending

variable (c : Crypto) (sort : ValueSort) (signer : Signer)
variable (wallet : Wallet)

/-
  No height that decides about the coin's age wraps around,
  and its lock is that of the key it is signed with.
-/
structure Redeemable
    (entry : UtxoEntry) : Prop where
  aged :
    entry.coin.isCoinbase = true →
      entry.coin.height.toNat +
            wallet.params.coinbaseMaturity.toNat <
          2 ^ 32 ∧
        wallet.tipHeight.toNat + 1 < 2 ^ 32
  keyed :
    OpensWith c signer (keyFor c wallet entry) entry.coin

/-
  The fewest of the wallet's largest coins that pay for the
  amount and their own fee fit into one transaction.
-/
def Sendable
    (amount feeRate : Int64) : Prop :=
  ∃ count ≤ maxPaymentInputs,
    LeastCovers amount (effectiveRate feeRate)
        (sort.order wallet.spendable) count ∧
      ∀ entry ∈ (sort.order wallet.spendable).take count,
        Redeemable c signer wallet entry

/- What a payment should be, at the tip it was made for. -/
structure GoodPayment
    (state : ChainState)
    (lock : Lock)
    (amount : Int64)
    (signed : SignedTx) : Prop where
  accepted :
    ∀ now, ∃ accepted after,
      Mempool.empty.accept c signed.tx state.utxo
          (state.tipHeight + 1) now wallet.params =
        (.ok accepted, after)
  outputs :
    ∃ change,
      signed.tx.outputs = { amount, lock } :: change ∧
        change.length ≤ 1 ∧
        ∀ output ∈ change,
          ∃ key ∈ wallet.ownedLocks c signer,
            key.lock = output.lock
  fee :
    signed.fee.toInt =
      (signed.tx.inputs.map fun input =>
          state.utxo.amountAt input.outpoint).sum -
        paidOut signed.tx

end Sending

section Deciding

variable {c : Crypto} {sort : ValueSort} {signer : Signer}
variable {wallet : Wallet} {state : ChainState}
variable {lock : Lock} {amount feeRate : Int64}

/-
  Where the account is found under its number, the lock that
  found the coin is the lock of its key.
-/
theorem OpensWith.of_account
    {entry : UtxoEntry}
    (hKeyed : KeyedBy (wallet.ownedLocks c signer) entry)
    {account : Account}
    (hAccount :
      wallet.db.accounts[entry.accountId.toNat]? =
        some account)
    {pair : KeyPair}
    (hPair :
      generateSchnorrKey signer (keyFor c wallet entry) =
        some pair) :
    OpensWith c signer (keyFor c wallet entry)
      entry.coin := by
  rcases hKeyed with ⟨key, hKey, hLock, hId, hIndex⟩
  refine ⟨pair, hPair, ?_⟩
  rcases List.mem_flatMap.mp hKey with ⟨owner, -, hOwned⟩
  rcases List.mem_map.mp hOwned with ⟨index, -, rfl⟩
  dsimp only at hLock hId hIndex
  rw [keyFor, ← hId, ← hIndex] at hPair
  rw [← hId] at hAccount
  rw [← hLock, deriveLock, hAccount]
  dsimp only
  rw [hPair]

/- The coins that the inputs name are worth the entries. -/
theorem Paying.totalValue_eq
    {coins : Utxo}
    {tx : Transaction}
    {entries : List UtxoEntry}
    (hPaying : Paying coins tx entries) :
    totalValue entries =
      (tx.inputs.map fun input =>
        coins.amountAt input.outpoint).sum := by
  rw [hPaying.inputs, List.map_map]
  unfold totalValue
  congr 1
  refine List.map_congr_left fun entry hEntry => ?_
  change _ = coins.amountAt entry.outpoint
  rw [Utxo.amountAt, hPaying.held entry hEntry]
  rfl

theorem mature_of_spendable
    {entry : UtxoEntry}
    (hEntry : entry ∈ wallet.spendable) :
    isMature wallet.params wallet.tipHeight entry.coin =
      true := by
  have hBoth := (List.mem_filter.mp hEntry).2
  rw [Bool.and_eq_true] at hBoth
  exact hBoth.2

/-
  A payment is good where the number of its inputs is not
  over the limit, and each of them can be redeemed.
-/
theorem Made.good_iff
    {network : Network}
    (hNetwork : wallet.params = paramsFor network)
    (hTip : wallet.tipHeight = state.tipHeight)
    {entries : List UtxoEntry}
    (hEntries : ∀ entry ∈ entries, entry ∈ wallet.spendable)
    {signed : SignedTx}
    (hMade :
      Made c signer state.utxo wallet lock amount entries
        signed) :
    GoodPayment c signer wallet state lock amount signed ↔
      entries.length ≤ maxPaymentInputs ∧
        ∀ entry ∈ entries,
          Redeemable c signer wallet entry := by
  have hDelay :
      0 < wallet.params.coinbaseMaturity.toNat := by
    rw [hNetwork]
    cases network <;> decide
  have hAccept :=
    hMade.paying.accept_iff hNetwork hMade.authorised
      (state.tipHeight + 1)
  have hRedeem : ∀ entry ∈ entries,
      (isImmature wallet.params (state.tipHeight + 1)
              entry.coin =
            false ∧
          OpensWith c signer (keyFor c wallet entry)
            entry.coin ↔
        Redeemable c signer wallet entry) := by
    intro entry hEntry
    have hMature := mature_of_spendable
      (hEntries entry hEntry)
    rw [← hTip, isImmature_iff hDelay hMature]
    exact ⟨fun hBoth => ⟨hBoth.1, hBoth.2⟩,
      fun hBoth => ⟨hBoth.aged, hBoth.keyed⟩⟩
  constructor
  · intro hGood
    rcases (hAccept 0).mp (hGood.accepted 0) with
      ⟨hFew, hEach⟩
    exact ⟨hFew, fun entry hEntry =>
      (hRedeem entry hEntry).mp (hEach entry hEntry)⟩
  · rintro ⟨hFew, hEach⟩
    refine ⟨fun now => (hAccept now).mpr ⟨hFew, ?_⟩,
      hMade.outputs, ?_⟩
    · exact fun entry hEntry =>
        (hRedeem entry hEntry).mpr (hEach entry hEntry)
    · rw [hMade.fee, hMade.paying.totalValue_eq]

/- A wallet that is up to date knows what payments need. -/
theorem Current.stocked
    {env : ChainEnv}
    {network : Network}
    (hNetwork : env.params = paramsFor network)
    (hCalm : Calm env.plan)
    {calls : List Call}
    (hDistinct :
      Set.InjOn (BlockHeader.hash env.crypto)
        {header | header ∈ offeredHeaders env calls})
    (hCurrent :
      Current env.crypto signer (run env calls) wallet) :
    Stocked env.crypto signer (run env calls).utxo
      wallet := by
  rcases hCurrent.coins hNetwork hCalm hDistinct with
    ⟨hValues, hReal, hBounded⟩
  exact ⟨hCurrent.found, hValues, hReal, hBounded⟩

theorem send_eq_some
    {address : ByteVec}
    {result : SendResult}
    {after : Wallet} :
    wallet.send c sort signer address amount feeRate =
        some (result, after) →
      ∃ lock signed,
        addressToLock address (hrpFor wallet.params) =
            some lock ∧
          wallet.payment c sort signer lock amount feeRate =
            some signed ∧
          result = resultOf signed := by
  intro hSend
  unfold send at hSend
  split at hSend
  · cases hSend
  rename_i lock hLock
  rcases Option.map_eq_some_iff.mp hSend with
    ⟨signed, hPayment, hSame⟩
  cases hSame
  exact ⟨lock, signed, hLock, hPayment, rfl⟩

/-
  What a wallet sends just after a rescan is taken by its
  node where it is `Sendable`, and is refused elsewhere.
-/
theorem send_good_iff
    {env : ChainEnv}
    {network : Network}
    (hNetwork : env.params = paramsFor network)
    (hCalm : Calm env.plan)
    {calls : List Call}
    (hDistinct :
      Set.InjOn (BlockHeader.hash env.crypto)
        {header | header ∈ offeredHeaders env calls})
    (hSigns : SignsWell signer env.crypto)
    (sort : ValueSort)
    {before : Wallet}
    (hParams : before.params = env.params)
    {blocks : List (Block × UInt32)}
    (hBlocks : ChainBlocks env (run env calls) blocks)
    (hRescan :
      before.rescan env.crypto signer blocks =
        some wallet)
    {address : ByteVec}
    {result : SendResult}
    {after : Wallet}
    (hSend :
      wallet.send env.crypto sort signer address amount
          feeRate =
        some (result, after)) :
    ∃ lock signed,
      addressToLock address (hrpFor env.params) =
          some lock ∧
        wallet.payment env.crypto sort signer lock amount
            feeRate =
          some signed ∧
        result = resultOf signed ∧
        (cost amount (effectiveRate feeRate)
              signed.tx.inputs.length <
            2 ^ 63 →
          (GoodPayment env.crypto signer wallet
              (run env calls) lock amount signed ↔
            Sendable env.crypto sort signer wallet amount
              feeRate)) := by
  have hCurrent := current_of_rescan hCalm hDistinct hBlocks
    hRescan
  have hSame : wallet.params = env.params :=
    (rescan_eq_some hRescan).2.1.trans hParams
  have hStocked :=
    hCurrent.stocked hNetwork hCalm hDistinct
  rcases send_eq_some hSend with
    ⟨lock, signed, hLock, hPayment, hResult⟩
  rw [hSame] at hLock
  refine ⟨lock, signed, hLock, hPayment, hResult, ?_⟩
  intro hFits
  rcases hStocked.made hSigns (addressToLock_form hLock).2
    hPayment hFits with ⟨count, hCount, hMade⟩
  rw [hMade.good_iff (hSame.trans hNetwork) hCurrent.tip
    (hStocked.taken sort count).2, List.length_take,
    Nat.min_eq_left hCount.within]
  constructor
  · rintro ⟨hFew, hEach⟩
    exact ⟨count, hFew, hCount, hEach⟩
  · rintro ⟨other, hFew, hOther, hEach⟩
    rw [hCount.unique hOther]
    exact ⟨hFew, hEach⟩

end Deciding

end Wallet

------------------------------------------------------------
-- A Wallet With Many Coins
------------------------------------------------------------

namespace Sample

open Wallet

/- A key pair is its secret, which signs by being shown. -/
def openSigner : Signer :=
  { Keypair := Bytes32
    keypairCreate := fun secret => some (.ofList secret)
    keypairXonlyPub := some
    schnorrsigSign32 := fun message keypair =>
      some
        ⟨keypair.bytes ++ message.bytes, by
          rw [List.length_append, Bytes32.size_eq,
            Bytes32.size_eq]⟩
    signWithOpenSsl := fun _ _ => none }

theorem openSigner_signsWell :
    SignsWell openSigner cheapCrypto := by
  intro secret keypair _
  refine ⟨keypair, rfl, ?_⟩
  intro message signature hSign
  cases hSign
  exact if_pos rfl

def newWallet : Wallet :=
  { seed := .zero
    db :=
      { accounts :=
          [{ label := asciiBytes "default"
             schemeName := asciiBytes defaultScheme
             accountId := 0
             highestDerived := 0
             gapLimit := 20 }]
        txs := fun _ => none }
    params := regtestParams
    balance := { confirmed := 0, pending := 0 }
    utxos := []
    tipHeight := 0 }

def ownLock : Lock :=
  newWallet.deriveLock cheapCrypto openSigner 0 0

theorem mem_ownLock :
    { lock := ownLock, account := 0, index := 0 } ∈
      newWallet.ownedLocks cheapCrypto openSigner := by
  exact List.mem_singleton.mpr rfl

theorem ownedLocks_newWallet :
    newWallet.ownedLocks cheapCrypto openSigner =
      [{ lock := ownLock, account := 0, index := 0 }] :=
  rfl

/- So many small coins that no payment can spend them all. -/
def smallCoin : TxOutput :=
  { amount := 3000
    lock := ownLock }

@[irreducible]
def smallCoins : List TxOutput :=
  List.replicate 7518 smallCoin

theorem sum_smallCoins :
    (smallCoins.map fun output => output.amount.toInt).sum =
      22554000 := by
  rw [smallCoins, List.map_replicate, List.sum_replicate]
  rfl

theorem payable_smallCoins :
    Payable smallCoins := by
  have hSmall : ∀ output ∈ smallCoins,
      output = smallCoin := by
    intro output hOutput
    rw [smallCoins] at hOutput
    exact List.eq_of_mem_replicate hOutput
  have hLength : smallCoins.length = 7518 := by
    rw [smallCoins, List.length_replicate]
  constructor
  case some =>
    intro hNone
    rw [hNone] at hLength
    cases hLength
  case few =>
    rw [hLength]
    decide
  case amounts =>
    intro output hOutput
    rw [hSmall output hOutput]
    decide
  case bounded =>
    rw [sum_smallCoins]
    decide
  case scheduled =>
    rw [sum_smallCoins]
    decide
  case light =>
    have hSize : ∀ output ∈ smallCoins,
        output.serialize.length = 42 := by
      intro output hOutput
      have hProgram := (program_ownedLocks mem_ownLock).2
      rw [hSmall output hOutput, TxOutput.serialize,
        List.length_append, Lock.serialize,
        List.length_append, writeI64, writeU64,
        length_littleEndian, length_writeByteString,
        smallCoin, hProgram]
      rfl
    rw [length_flatMap_of_length hSize, hLength]
    decide

/- The coins of the first block, as soon as they can be spent. -/
def coinsCalls : List Call :=
  lineCalls smallCoins 21

def coinsBlocks : List (Block × UInt32) :=
  scannedBlocks
    (run cheapEnv coinsCalls).db.records.blocks
    (run cheapEnv coinsCalls).chain

theorem coinsBlocks_eq :
    coinsBlocks =
      (lineBlock smallCoins 1, 1) ::
        (List.range' 2 20).map fun place =>
          (lineBlock smallCoins place,
            UInt32.ofNat place) := by
  have hSmall : 21 < 2 ^ 32 := by
    norm_num
  have hStored :
      bodiesAbove
          (run cheapEnv coinsCalls).db.records.blocks
          (run cheapEnv coinsCalls).chain =
        (List.range' 1 21).map (lineBlock smallCoins) := by
    rw [coinsCalls]
    exact storedBodies_line payable_smallCoins hSmall
  have hHeight : ∀ place,
      (lineBlock smallCoins place).header.height =
        UInt32.ofNat place :=
    fun place => (lineHeader_fields place).1
  have hAll :
      coinsBlocks =
        ((List.range' 1 21).map (lineBlock smallCoins)).map
          fun block => (block, block.header.height) := by
    rw [coinsBlocks, scannedBlocks, hStored]
  rw [hAll, List.map_map, List.range'_succ, List.map_cons]
  refine congrArg₂ List.cons ?_ ?_
  · change (_, _) = (_, _)
    rw [hHeight]
    rfl
  · refine List.map_congr_left fun place _ => ?_
    change (_, _) = (_, _)
    rw [hHeight]

/- What the scan of the first block finds at an index. -/
def smallEntry
    (index : Nat) : UtxoEntry :=
  { outpoint :=
      { txid := (lineCoinbase smallCoins 1).txid cheapCrypto
        index := UInt32.ofNat index }
    coin :=
      { output := smallCoin
        height := 1
        isCoinbase := true }
    confirmed := true
    accountId := 0
    derivationIndex := 0 }

theorem scanBlock_first
    {wallet : Wallet}
    (hEmpty : wallet.utxos = []) :
    (scanBlock cheapCrypto
        (newWallet.ownedLocks cheapCrypto openSigner)
        wallet (lineBlock smallCoins 1, 1)).utxos =
      (List.range' 0 7518).map smallEntry := by
  have hFound : ∀ index,
      foundEntry cheapCrypto
          (newWallet.ownedLocks cheapCrypto openSigner) 1
          (lineCoinbase smallCoins 1) (smallCoin, index) =
        some (smallEntry index) := by
    intro index
    have hFind :
        [({ lock := ownLock, account := 0, index := 0 } :
            OwnedLock)].find? (·.lock = smallCoin.lock) =
          some { lock := ownLock, account := 0, index := 0 } :=
      List.find?_cons_of_pos (decide_eq_true rfl)
    rw [foundEntry, ownedLocks_newWallet]
    exact congrArg (Option.map _) hFind
  change (wallet.scanTransaction _ _ _
    (lineCoinbase smallCoins 1)).utxos = _
  rw [Found.scanTransaction_utxos, Found.scanInputs_same]
  · change wallet.utxos ++ (smallCoins.zipIdx.filterMap _) =
      _
    have hAll : ∀ found ∈ smallCoins.zipIdx,
        foundEntry cheapCrypto
            (newWallet.ownedLocks cheapCrypto openSigner) 1
            (lineCoinbase smallCoins 1) found =
          some (smallEntry found.2) := by
      rintro ⟨output, index⟩ hMember
      have hOutput := List.fst_mem_of_mem_zipIdx hMember
      rw [smallCoins] at hOutput
      cases List.eq_of_mem_replicate hOutput
      exact hFound index
    have hIndices :
        smallCoins.zipIdx.map Prod.snd =
          List.range' 0 7518 := by
      rw [List.zipIdx_map_snd, smallCoins,
        List.length_replicate]
    rw [hEmpty, List.nil_append, ← hIndices, List.map_map]
    exact (List.filterMap_congr hAll).trans
      (congrFun List.filterMap_eq_map _)
  · intro _ _ entry hEntry
    change entry ∈ wallet.utxos at hEntry
    rw [hEmpty] at hEntry
    cases hEntry

/- A block above it neither adds nor removes a coin. -/
theorem scanBlock_above
    {wallet : Wallet}
    (hReal :
      ∀ entry ∈ wallet.utxos,
        entry.outpoint.isNull = false)
    {place : Nat}
    (hPlace : 1 < place) :
    (scanBlock cheapCrypto
        (newWallet.ownedLocks cheapCrypto openSigner)
        wallet
        (lineBlock smallCoins place,
          UInt32.ofNat place)).utxos =
      wallet.utxos := by
  have hOutputs : lineOutputs smallCoins place = [burnt] :=
    if_neg (Nat.ne_of_gt hPlace)
  have hLock : ownLock ≠ burnt.lock := by
    intro hSame
    have hVersion := (program_ownedLocks mem_ownLock).1
    rw [hSame] at hVersion
    exact absurd hVersion (by decide)
  change (wallet.scanTransaction _ _ _
    (lineCoinbase smallCoins place)).utxos = _
  rw [Found.scanTransaction_utxos, Found.scanInputs_same]
  · change wallet.utxos ++
      ((lineOutputs smallCoins place).zipIdx.filterMap
        _) = _
    rw [hOutputs]
    change wallet.utxos ++
      (List.filterMap _ [(burnt, 0)]) = _
    rw [List.filterMap_cons_none, List.filterMap_nil,
      List.append_nil]
    have hFind :
        [({ lock := ownLock, account := 0, index := 0 } :
            OwnedLock)].find? (·.lock = burnt.lock) =
          none :=
      List.find?_cons_of_neg (by
        rw [decide_eq_true_eq]
        exact hLock)
    rw [foundEntry, ownedLocks_newWallet]
    exact congrArg (Option.map _) hFind
  · intro input hInput entry hEntry hSame
    rcases List.mem_singleton.mp hInput with rfl
    have hNull := hReal entry hEntry
    rw [hSame] at hNull
    cases hNull

theorem real_smallEntry
    {entry : UtxoEntry}
    (hEntry :
      entry ∈ (List.range' 0 7518).map smallEntry) :
    entry.outpoint.isNull = false := by
  rcases List.mem_map.mp hEntry with ⟨index, hIndex, rfl⟩
  rw [List.mem_range'_1] at hIndex
  rw [OutPoint.isNull, Bool.and_eq_false_iff]
  right
  rw [beq_eq_false_iff_ne]
  intro hSentinel
  have hNat := congrArg UInt32.toNat hSentinel
  change (UInt32.ofNat index).toNat = 4294967295 at hNat
  rw [UInt32.toNat_ofNat'] at hNat
  omega

/- By induction on the blocks above the first. -/
theorem scanBlocks_above
    {wallet : Wallet}
    (hReal :
      ∀ entry ∈ wallet.utxos,
        entry.outpoint.isNull = false)
    {places : List Nat}
    (hPlaces : ∀ place ∈ places, 1 < place) :
    ((places.map fun place =>
        (lineBlock smallCoins place,
          UInt32.ofNat place)).foldl
      (scanBlock cheapCrypto
        (newWallet.ownedLocks cheapCrypto openSigner))
      wallet).utxos =
      wallet.utxos := by
  induction places generalizing wallet with
  | nil => rfl
  | cons place places ih =>
      rw [List.forall_mem_cons] at hPlaces
      have hHere := scanBlock_above hReal hPlaces.1
      rw [List.map_cons, List.foldl_cons, ih _ hPlaces.2,
        hHere]
      rw [hHere]
      exact hReal

/- The wallet after its first rescan. -/
structure Filled
    (wallet : Wallet) : Prop where
  rescan :
    newWallet.rescan cheapCrypto openSigner coinsBlocks =
      some wallet
  seed : wallet.seed = newWallet.seed
  accounts : wallet.db.accounts = newWallet.db.accounts
  params : wallet.params = regtestParams
  tip : wallet.tipHeight = 21
  utxos :
    wallet.utxos = (List.range' 0 7518).map smallEntry

theorem exists_filled :
    ∃ wallet, Filled wallet := by
  have hSome :
      ∃ wallet,
        newWallet.rescan cheapCrypto openSigner
            coinsBlocks =
          some wallet :=
    ⟨_, if_neg (by decide)⟩
  rcases hSome with ⟨wallet, hRescan⟩
  rcases rescan_eq_some hRescan with
    ⟨hSeed, hParams, hAccounts, hTip, start, hStart, hUtxos⟩
  refine ⟨wallet, hRescan, hSeed, hAccounts, hParams, ?_, ?_⟩
  · rw [hTip, coinsBlocks_eq]
    rfl
  · have hFirst := scanBlock_first hStart
    rw [hUtxos, coinsBlocks_eq, List.foldl_cons,
      scanBlocks_above, hFirst]
    · rw [hFirst]
      exact fun entry hEntry => real_smallEntry hEntry
    · intro place hPlace
      rw [List.mem_range'_1] at hPlace
      omega

theorem totalValue_equal
    {entries : List UtxoEntry}
    {value : Int}
    (hValue :
      ∀ entry ∈ entries, entry.amount.toInt = value) :
    totalValue entries = value * entries.length := by
  induction entries with
  | nil => exact (Int.mul_zero _).symm
  | cons entry entries ih =>
      rw [List.forall_mem_cons] at hValue
      rw [totalValue_cons, hValue.1, ih hValue.2,
        List.length_cons]
      push_cast
      ring

/- What so many of the coins come to, less their fee. -/
def exactAmount
    (count : Nat) : Int64 :=
  Int64.ofNat (436 * count - 208)

theorem toInt_exactAmount
    {count : Nat}
    (hSome : 0 < count)
    (hMost : count ≤ 7518) :
    (exactAmount count).toInt = 436 * count - 208 := by
  rw [exactAmount, Int64.toInt_ofNat_of_lt (by omega)]
  omega

theorem exists_signInputs
    {privateKey : UtxoEntry → ByteVec}
    (hKeys : ∀ entry, (privateKey entry).length = 32)
    (entries : List UtxoEntry)
    (chainId : Hash256)
    (tx : Transaction)
    (midstates : SigHashMidstates)
    (start : Nat) :
    ∃ witnesses,
      TxBuilder.signInputs cheapCrypto openSigner chainId
          tx midstates start (entries.map UtxoEntry.coin)
          (entries.map privateKey)
          (entries.map fun _ => schemeSchnorrSecp256k1) =
        some witnesses := by
  induction entries generalizing start with
  | nil => exact ⟨[], rfl⟩
  | cons entry entries ih =>
      rcases ih (start + 1) with ⟨rest, hRest⟩
      rw [List.map_cons, List.map_cons, List.map_cons,
        TxBuilder.signInputs, hRest, TxBuilder.signInput,
        if_pos rfl, signSchnorr,
        if_neg (not_not_intro (hKeys entry))]
      exact ⟨_, rfl⟩

namespace Filled

variable {wallet : Wallet}

/- All of its coins are old enough, and are worth the same. -/
theorem spendable
    (hFilled : Filled wallet) :
    wallet.spendable = wallet.utxos := by
  refine List.filter_eq_self.mpr ?_
  intro entry hEntry
  rw [hFilled.utxos] at hEntry
  rcases List.mem_map.mp hEntry with ⟨index, -, rfl⟩
  rw [hFilled.params, hFilled.tip]
  rfl

theorem ordered
    (hFilled : Filled wallet)
    (sort : ValueSort) :
    (sort.order wallet.spendable).length = 7518 ∧
      ∀ entry ∈ sort.order wallet.spendable,
        entry.amount.toInt = 3000 := by
  have hPerm := sort.perm wallet.spendable
  rw [hFilled.spendable, hFilled.utxos] at hPerm
  rw [hFilled.spendable, hFilled.utxos]
  constructor
  · rw [hPerm.length_eq, List.length_map, List.length_range']
  · intro entry hEntry
    rcases List.mem_map.mp (hPerm.mem_iff.mp hEntry) with
      ⟨index, -, rfl⟩
    rfl

theorem summable
    (hFilled : Filled wallet) :
    Summable wallet.spendable := by
  have hValue : ∀ entry ∈ wallet.spendable,
      entry.amount.toInt = 3000 := by
    intro entry hEntry
    rw [hFilled.spendable, hFilled.utxos] at hEntry
    rcases List.mem_map.mp hEntry with ⟨index, -, rfl⟩
    rfl
  constructor
  · intro entry hEntry
    rw [hValue entry hEntry]
    decide
  · have hLength : wallet.spendable.length = 7518 := by
      rw [hFilled.spendable, hFilled.utxos,
        List.length_map, List.length_range']
    rw [totalValue_equal hValue, hLength]
    norm_num

/- What so many of the coins pay for, at a rate of one. -/
theorem leastCovers
    (hFilled : Filled wallet)
    (sort : ValueSort)
    {count : Nat}
    (hSome : 0 < count)
    (hMost : count ≤ 7518) :
    LeastCovers (exactAmount count) (effectiveRate 1)
      (sort.order wallet.spendable) count := by
  rcases hFilled.ordered sort with ⟨hLength, hValue⟩
  have hCost : ∀ other,
      cost (exactAmount count) (effectiveRate 1) other =
        436 * count + 2564 * other := by
    intro other
    rw [cost, toInt_exactAmount hSome hMost,
      estimateTxWeight_one]
    change _ + 1 * _ = _
    push_cast
    omega
  have hTotal : ∀ other ≤ 7518,
      totalValue
          ((sort.order wallet.spendable).take other) =
        3000 * other := by
    intro other hOther
    rw [totalValue_equal fun entry hEntry =>
      hValue entry (List.mem_of_mem_take hEntry),
      List.length_take, hLength, Nat.min_eq_left hOther]
  refine ⟨hSome, by omega, ?_, ?_⟩
  · rw [Covers, hCost, hTotal count hMost]
    omega
  · intro fewer _ hFewer hCovers
    rw [Covers, hCost, hTotal fewer (by omega)] at hCovers
    omega

/- It is sent, and takes that many of them. -/
theorem payment
    (hFilled : Filled wallet)
    (sort : ValueSort)
    (lock : Lock)
    {count : Nat}
    (hSome : 0 < count)
    (hMost : count ≤ 7518) :
    ∃ signed,
      wallet.payment cheapCrypto sort openSigner lock
          (exactAmount count) 1 =
        some signed ∧
      signed.tx.inputs.length = count := by
  have hAmount : 0 < (exactAmount count).toInt := by
    rw [toInt_exactAmount hSome hMost]
    omega
  rcases selectCoins_of_covers sort hAmount
    (Int.le_of_lt (effectiveRate_pos 1)) hFilled.summable
    (hFilled.leastCovers sort hSome hMost) with
    ⟨hSuccess, hLength⟩
  have hKeys : ∀ entry,
      (keyFor cheapCrypto wallet entry).length = 32 :=
    fun _ => length_deriveSecp256k1Key ..
  rcases exists_signInputs hKeys
    (selectionFor sort wallet (exactAmount count) 1).inputs
    wallet.params.chainId
    (wallet.paymentTx lock (exactAmount count) 1
      (selectionFor sort wallet (exactAmount count) 1) [])
    (computeSigHashMidstates cheapCrypto
      (wallet.paymentTx lock (exactAmount count) 1
        (selectionFor sort wallet (exactAmount count) 1)
        []))
    0 with
    ⟨witnesses, hWitnesses⟩
  have hInputs : ∀ selected,
      (wallet.paymentTx lock (exactAmount count) 1 selected
          witnesses).inputs.length =
        selected.inputs.length :=
    fun _ => List.length_map _
  exact ⟨_, payment_eq_some.mpr
    ⟨hSuccess, witnesses, hWitnesses, rfl⟩,
    (hInputs _).trans hLength⟩

end Filled

/- An address of the network, to nobody in particular. -/
def zeroAddress : ByteVec :=
  asciiBytes
    ("tamr1pqqqqqqqqqqqqqqqqqqqqqqqqqqqqqqqqqqqqqqqqqqqq" ++
      "qqqqqqqqkzahfa")

theorem addressToLock_zeroAddress :
    addressToLock zeroAddress (hrpFor regtestParams) =
      some zeroLock := by
  decide +kernel

theorem Filled.send
    {wallet : Wallet}
    (hFilled : Filled wallet)
    (sort : ValueSort)
    {count : Nat}
    (hSome : 0 < count)
    (hMost : count ≤ 7518) :
    ∃ signed after,
      wallet.payment cheapCrypto sort openSigner zeroLock
          (exactAmount count) 1 =
        some signed ∧
      signed.tx.inputs.length = count ∧
      wallet.send cheapCrypto sort openSigner zeroAddress
          (exactAmount count) 1 =
        some (resultOf signed, after) := by
  rcases hFilled.payment sort zeroLock hSome hMost with
    ⟨signed, hPayment, hCount⟩
  have hSend :
      wallet.send cheapCrypto sort openSigner zeroAddress
          (exactAmount count) 1 =
        wallet.sendToLock cheapCrypto sort openSigner
          zeroLock (exactAmount count) 1 := by
    rw [Wallet.send, hFilled.params,
      addressToLock_zeroAddress]
  rw [sendToLock, hPayment] at hSend
  exact ⟨signed, _, hPayment, hCount, hSend⟩

theorem calm_cheap :
    Calm cheapEnv.plan :=
  fun _ _ _ => rfl

theorem distinct_coinsCalls :
    Set.InjOn (BlockHeader.hash cheapEnv.crypto)
      {header |
        header ∈ offeredHeaders cheapEnv coinsCalls} := by
  have hSmall : 21 < 2 ^ 32 := by
    norm_num
  rw [coinsCalls]
  exact injOn_lineHeaders hSmall

theorem chainBlocks_coins :
    ChainBlocks cheapEnv (run cheapEnv coinsCalls)
      coinsBlocks := by
  rw [coinsBlocks]
  exact Or.inl rfl

theorem Filled.redeemable
    {wallet : Wallet}
    (hFilled : Filled wallet)
    {entry : UtxoEntry}
    (hEntry : entry ∈ wallet.spendable) :
    Redeemable cheapCrypto openSigner wallet entry := by
  rw [hFilled.spendable, hFilled.utxos] at hEntry
  rcases List.mem_map.mp hEntry with ⟨index, -, rfl⟩
  have hOwned :
      wallet.ownedLocks cheapCrypto openSigner =
        newWallet.ownedLocks cheapCrypto openSigner := by
    unfold ownedLocks deriveLock
    rw [hFilled.seed, hFilled.accounts]
  have hKey :
      ¬(keyFor cheapCrypto wallet
          (smallEntry index)).length ≠ 32 :=
    not_not_intro (length_deriveSecp256k1Key ..)
  constructor
  · intro _
    rw [hFilled.params, hFilled.tip]
    change (1 : UInt32).toNat +
          regtestParams.coinbaseMaturity.toNat <
        2 ^ 32 ∧
      (21 : UInt32).toNat + 1 < 2 ^ 32
    decide
  · have hKeyed :
        KeyedBy (wallet.ownedLocks cheapCrypto openSigner)
          (smallEntry index) := by
      rw [hOwned]
      exact ⟨_, mem_ownLock, rfl, rfl, rfl⟩
    have hAccount :
        wallet.db.accounts[
            (smallEntry index).accountId.toNat]? =
          newWallet.db.accounts.head? := by
      rw [hFilled.accounts]
      rfl
    exact OpensWith.of_account hKeyed hAccount (if_neg hKey)

/- The coins of the first block pay for each other. -/
theorem one_coin_sent :
    ∃ wallet signed result after,
      newWallet.rescan cheapCrypto openSigner coinsBlocks =
          some wallet ∧
        wallet.send cheapCrypto valueSort openSigner
            zeroAddress (exactAmount 1) 1 =
          some (result, after) ∧
        result = resultOf signed ∧
        GoodPayment cheapCrypto openSigner wallet
          (run cheapEnv coinsCalls) zeroLock (exactAmount 1)
          signed := by
  rcases exists_filled with ⟨wallet, hFilled⟩
  have hMost : 1 ≤ 7518 := by
    decide
  rcases hFilled.send valueSort Nat.one_pos hMost with
    ⟨signed, after, hPayment, hCount, hSend⟩
  have hNetwork :
      cheapEnv.params = paramsFor .regtest :=
    rfl
  rcases send_good_iff hNetwork calm_cheap
    distinct_coinsCalls openSigner_signsWell valueSort rfl
    chainBlocks_coins hFilled.rescan hSend with
    ⟨lock, other, hLock, hOther, hResult, hGood⟩
  have hSameLock : some zeroLock = some lock :=
    addressToLock_zeroAddress.symm.trans hLock
  cases hSameLock
  cases hPayment.symm.trans hOther
  refine ⟨wallet, signed, _, after, hFilled.rescan, hSend,
    hResult, (hGood ?_).mpr ?_⟩
  · rw [hCount]
    decide
  · refine ⟨1, by decide,
      hFilled.leastCovers valueSort Nat.one_pos hMost, ?_⟩
    intro entry hEntry
    exact hFilled.redeemable
      ((valueSort.perm wallet.spendable).mem_iff.mp
        (List.mem_of_mem_take hEntry))

/- One input too many, and the node does not take it. -/
theorem all_coins_refused :
    ∃ wallet signed after,
      newWallet.rescan cheapCrypto openSigner coinsBlocks =
          some wallet ∧
        ChainBlocks cheapEnv (run cheapEnv coinsCalls)
          coinsBlocks ∧
        SignsWell openSigner cheapCrypto ∧
        wallet.payment cheapCrypto valueSort openSigner
            zeroLock (exactAmount 7518) 1 =
          some signed ∧
        wallet.send cheapCrypto valueSort openSigner
            zeroAddress (exactAmount 7518) 1 =
          some (resultOf signed, after) ∧
        cost (exactAmount 7518) (effectiveRate 1)
            signed.tx.inputs.length <
          2 ^ 63 ∧
        ∀ now accepted later,
          Mempool.empty.accept cheapCrypto signed.tx
              (run cheapEnv coinsCalls).utxo
              ((run cheapEnv coinsCalls).tipHeight + 1) now
              regtestParams ≠
            (.ok accepted, later) := by
  rcases exists_filled with ⟨wallet, hFilled⟩
  have hSome : 0 < 7518 := by
    decide
  rcases hFilled.send valueSort hSome (Nat.le_refl _) with
    ⟨signed, after, hPayment, hCount, hSend⟩
  have hFits :
      cost (exactAmount 7518) (effectiveRate 1)
          signed.tx.inputs.length <
        2 ^ 63 := by
    rw [hCount]
    decide
  have hNetwork :
      cheapEnv.params = paramsFor .regtest :=
    rfl
  have hCurrent := current_of_rescan calm_cheap
    distinct_coinsCalls chainBlocks_coins hFilled.rescan
  have hStocked := hCurrent.stocked hNetwork calm_cheap
    distinct_coinsCalls
  rcases hStocked.made openSigner_signsWell
    List.length_replicate hPayment hFits with
    ⟨count, hLeast, hMade⟩
  have hAll := hLeast.unique
    (hFilled.leastCovers valueSort hSome (Nat.le_refl _))
  rw [hAll] at hMade
  have hAccept := hMade.paying.accept_iff
    (hFilled.params.trans hNetwork) hMade.authorised
    ((run cheapEnv coinsCalls).tipHeight + 1)
  refine ⟨wallet, signed, after, hFilled.rescan,
    chainBlocks_coins, openSigner_signsWell, hPayment,
    hSend, hFits, ?_⟩
  intro now accepted later hTaken
  rw [hFilled.params] at hAccept
  have hFew := ((hAccept now).mp ⟨accepted, later, hTaken⟩).1
  rw [List.length_take, (hFilled.ordered valueSort).1] at hFew
  exact absurd hFew (by decide)

end Sample

end Amarian
