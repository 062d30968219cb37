import Amarian.Wallet.Holdings

/-
  When a reward can be spent: what the wallet says at a tip,
  and what the rules say of the block above it.

  Key definitions include:
    * `Wallet.SameMaturity`
    * `Wallet.RulesMeet`

  Key theorems include:
    * `Wallet.confirmed_of_rescan`
    * `Wallet.sameMaturity_of_confirmed`
    * `Wallet.rescan_sameMaturity_iff`
-/

------------------------------------------------------------
-- Entries Of A Scan
------------------------------------------------------------

namespace Amarian

namespace Wallet

section Scans

variable {c : Crypto} {owned : List OwnedLock}

theorem confirmed_foundEntry
    {height : UInt32}
    {tx : Transaction}
    {found : TxOutput × Nat}
    {entry : UtxoEntry}
    (hEntry :
      foundEntry c owned height tx found = some entry) :
    entry.confirmed = true := by
  rcases Option.map_eq_some_iff.mp hEntry with ⟨key, -, rfl⟩
  rfl

/- A scan brings in confirmed entries only. -/
theorem confirmed_scanTransaction
    {height : UInt32}
    {wallet : Wallet}
    (hConfirmed :
      ∀ entry ∈ wallet.utxos, entry.confirmed = true)
    (tx : Transaction) :
    ∀ entry ∈ (wallet.scanTransaction c owned height tx).utxos,
      entry.confirmed = true := by
  intro entry hEntry
  rw [Found.scanTransaction_utxos] at hEntry
  rcases List.mem_append.mp hEntry with hOld | hNew
  · exact hConfirmed entry
      ((Found.scanInputs_sublist _ _).subset hOld)
  · rcases List.mem_filterMap.mp hNew with
      ⟨found, -, hFound⟩
    exact confirmed_foundEntry hFound

theorem confirmed_scanBlock
    {wallet : Wallet}
    (hConfirmed :
      ∀ entry ∈ wallet.utxos, entry.confirmed = true)
    (scanned : Block × UInt32) :
    ∀ entry ∈ (scanBlock c owned wallet scanned).utxos,
      entry.confirmed = true := by
  unfold scanBlock
  generalize scanned.1.transactions = txs
  induction txs generalizing wallet with
  | nil => exact hConfirmed
  | cons tx txs ih =>
      rw [List.foldl_cons]
      exact ih (confirmed_scanTransaction hConfirmed tx)

/- By induction on the blocks. -/
theorem confirmed_of_rescan
    {signer : Signer}
    {blocks : List (Block × UInt32)}
    {before after : Wallet}
    (hRescan : before.rescan c signer blocks = some after) :
    ∀ entry ∈ after.utxos, entry.confirmed = true := by
  rcases rescan_eq_some hRescan with
    ⟨-, -, -, -, start, hStart, hUtxos⟩
  rw [hUtxos]
  have hEmpty : ∀ entry ∈ start.utxos,
      entry.confirmed = true := by
    rw [hStart]
    exact fun _ hNone => nomatch hNone
  clear hUtxos hStart hRescan
  induction blocks generalizing start with
  | nil => exact hEmpty
  | cons scanned blocks ih =>
      rw [List.foldl_cons]
      exact ih _ (confirmed_scanBlock hEmpty scanned)

end Scans

------------------------------------------------------------
-- Two Rules For One Thing
------------------------------------------------------------

/-
  The wallet counts and offers a coin exactly if a block above
  the tip may spend it, and no sum of heights wraps around.
-/
structure SameMaturity
    (wallet : Wallet)
    (entry : UtxoEntry) : Prop where
  counted :
    mature wallet.params wallet.tipHeight entry = true ↔
      isImmature wallet.params (wallet.tipHeight + 1)
          entry.coin =
        false
  offered :
    entry ∈ wallet.spendable ↔
      isImmature wallet.params (wallet.tipHeight + 1)
          entry.coin =
        false
  fits :
    entry.coin.isCoinbase = true →
      wallet.tipHeight.toNat + 1 < 2 ^ 32 ∧
        entry.coin.height.toNat +
            wallet.params.coinbaseMaturity.toNat <
          2 ^ 32

/-
  The wallet waits for one block more than the rules do, and
  for none where its own sum wraps around.
-/
def RulesMeet
    (wallet : Wallet)
    (coin : Coin) : Prop :=
  coin.isCoinbase = true →
    wallet.tipHeight.toNat + 1 < 2 ^ 32 ∧
      coin.height.toNat +
          wallet.params.coinbaseMaturity.toNat <
        2 ^ 32 ∧
      coin.height.toNat +
          wallet.params.coinbaseMaturity.toNat ≠
        wallet.tipHeight.toNat + 1

theorem mature_iff
    {params : ChainParams}
    {tipHeight : UInt32}
    {entry : UtxoEntry}
    (hFits :
      entry.coin.height.toNat +
          params.coinbaseMaturity.toNat <
        2 ^ 32) :
    mature params tipHeight entry = true ↔
      (entry.coin.isCoinbase = true →
        entry.coin.height.toNat +
            params.coinbaseMaturity.toNat ≤
          tipHeight.toNat) := by
  have hSum :
      (entry.coin.height + params.coinbaseMaturity).toNat =
        entry.coin.height.toNat +
          params.coinbaseMaturity.toNat := by
    rw [UInt32.toNat_add, Nat.mod_eq_of_lt hFits]
  rw [mature, isMature, Bool.or_eq_true,
    Bool.not_eq_true', decide_eq_true_eq, ge_iff_le,
    UInt32.le_iff_toNat_le, hSum]
  rcases entry.coin.isCoinbase with _ | _
  · simp
  · simp

theorem isImmature_eq_false_iff
    {params : ChainParams}
    {tipHeight : UInt32}
    {coin : Coin}
    (hNext : tipHeight.toNat + 1 < 2 ^ 32) :
    isImmature params (tipHeight + 1) coin = false ↔
      (coin.isCoinbase = true →
        coin.height.toNat + params.coinbaseMaturity.toNat ≤
          tipHeight.toNat + 1) := by
  have hHeight :
      (tipHeight + 1).toNat = tipHeight.toNat + 1 := by
    rw [UInt32.toNat_add]
    exact Nat.mod_eq_of_lt hNext
  rw [isImmature, hHeight]
  rcases coin.isCoinbase with _ | _
  · simp
  · rw [Bool.true_and, decide_eq_false_iff_not]
    push_cast
    constructor
    · intro hOld _
      omega
    · intro hOld
      have hAge := hOld rfl
      omega

theorem mem_spendable_iff
    {wallet : Wallet}
    {entry : UtxoEntry}
    (hEntry : entry ∈ wallet.utxos)
    (hConfirmed : entry.confirmed = true) :
    entry ∈ wallet.spendable ↔
      mature wallet.params wallet.tipHeight entry = true := by
  rw [spendable, List.mem_filter, hConfirmed, Bool.true_and,
    mature]
  exact and_iff_right hEntry

theorem sameMaturity_of_confirmed
    {wallet : Wallet}
    {entry : UtxoEntry}
    (hEntry : entry ∈ wallet.utxos)
    (hConfirmed : entry.confirmed = true) :
    SameMaturity wallet entry ↔
      wallet.RulesMeet entry.coin := by
  have hOffered := mem_spendable_iff hEntry hConfirmed
  constructor
  · intro hSame hCoinbase
    rcases hSame.fits hCoinbase with ⟨hNext, hFits⟩
    refine ⟨hNext, hFits, ?_⟩
    have hCounted := hSame.counted
    rw [mature_iff hFits, isImmature_eq_false_iff hNext]
      at hCounted
    intro hEdge
    have hOld := hCounted.mpr (fun _ => by omega) hCoinbase
    omega
  · intro hMeet
    have hCounted :
        mature wallet.params wallet.tipHeight entry = true ↔
          isImmature wallet.params (wallet.tipHeight + 1)
              entry.coin =
            false := by
      rcases hCoinbase : entry.coin.isCoinbase with _ | _
      · rw [mature, isMature, isImmature, hCoinbase]
        simp
      · rcases hMeet hCoinbase with ⟨hNext, hFits, hEdge⟩
        rw [mature_iff hFits, isImmature_eq_false_iff hNext,
          hCoinbase]
        constructor
        · intro hOld _
          have hAge := hOld rfl
          omega
        · intro hOld _
          have hAge := hOld rfl
          omega
    constructor
    case counted => exact hCounted
    case offered => exact hOffered.trans hCounted
    case fits =>
      intro hCoinbase
      rcases hMeet hCoinbase with ⟨hNext, hFits, -⟩
      exact ⟨hNext, hFits⟩

section Rescans

variable {c : Crypto} {signer : Signer} {network : Network}
variable {blocks : List (Block × UInt32)} {coins : Utxo}
variable {params : ChainParams} {before after : Wallet}

theorem tipHeight_of_rescan
    (hActive : ActiveBlocks c params blocks coins)
    (hRescan : before.rescan c signer blocks = some after) :
    after.tipHeight.toNat = blocks.length := by
  rcases rescan_eq_some hRescan with ⟨-, -, -, hTip, -⟩
  rw [hTip]
  cases hActive with
  | genesis => rfl
  | block hBelow hHeight =>
      rw [List.getLast?_concat, List.length_append]
      exact hHeight

/-
  On every chain the balance counts what the wallet takes for
  mature; that is what the rules let the next block spend,
  except for a reward that becomes so just then, or whose
  height and delay are together too large.
-/
theorem rescan_sameMaturity_iff
    (hNetwork : params = paramsFor network)
    (hActive : ActiveBlocks c params blocks coins)
    (hRescan : before.rescan c signer blocks = some after) :
    after.tipHeight.toNat = blocks.length ∧
      after.balance.confirmed.toInt =
        totalValue
          (after.utxos.filter
            (mature after.params after.tipHeight)) ∧
      ∀ entry ∈ after.utxos,
        (SameMaturity after entry ↔
          after.RulesMeet entry.coin) := by
  refine ⟨tipHeight_of_rescan hActive hRescan,
    (balance_of_rescan hNetwork hActive hRescan).1, ?_⟩
  intro entry hEntry
  exact sameMaturity_of_confirmed hEntry
    (confirmed_of_rescan hRescan entry hEntry)

end Rescans

end Wallet

------------------------------------------------------------
-- Samples
------------------------------------------------------------

namespace Sample

open Wallet

/- The reward of the first block, in the set of the line. -/
theorem lineCoins_small :
    lineCoins [smallCoin] 20
        (outPointFor
          ((lineCoinbase [smallCoin] 1).txid cheapCrypto)
          0) =
      some
        { output := smallCoin
          height := 1
          isCoinbase := true } := by
  decide +kernel

theorem derives_ownLock :
    newWallet.Derives cheapCrypto openSigner
      smallCoin.lock :=
  ⟨0, _, rfl, 0, by decide, rfl⟩

/- The block above may spend the reward, and it is pending. -/
theorem reward_one_late :
    ActiveBlocks cheapCrypto regtestParams
        (lineBlocks [smallCoin] 20)
        (lineCoins [smallCoin] 20) ∧
      ∃ after entry,
        newWallet.rescan cheapCrypto openSigner
              (lineBlocks [smallCoin] 20) =
            some after ∧
          entry ∈ after.utxos ∧
          isImmature after.params (after.tipHeight + 1)
              entry.coin =
            false ∧
          entry ∉ after.spendable ∧
          ¬SameMaturity after entry := by
  have hActive :=
    @activeBlocks_line [smallCoin] payable_smallCoin 20
      (by decide)
  refine ⟨hActive, ?_⟩
  rcases @exists_rescan newWallet rfl
    (lineBlocks [smallCoin] 20) with ⟨after, hRescan⟩
  have hHoldings := @holdings_of_rescan cheapCrypto openSigner
    .regtest _ _ regtestParams newWallet after rfl hActive
    inPlace_newWallet hRescan
  rcases (hHoldings.exact _ _).mpr
    ⟨lineCoins_small, derives_ownLock⟩ with
    ⟨entry, hEntry, -, hCoin⟩
  rcases rescan_eq_some hRescan with ⟨-, hParams, -, hTip, -⟩
  have hTwenty : after.tipHeight = 20 := hTip
  have hRegtest : after.params = regtestParams := hParams
  have hPast :
      isImmature after.params (after.tipHeight + 1)
          entry.coin =
        false := by
    rw [hRegtest, hTwenty, hCoin]
    decide
  have hHeld : entry ∉ after.spendable := by
    rw [mem_spendable_iff hEntry
      (confirmed_of_rescan hRescan entry hEntry), mature,
      hRegtest, hTwenty, hCoin]
    decide
  refine ⟨after, entry, hRescan, hEntry, hPast, hHeld, ?_⟩
  exact fun hSame => hHeld (hSame.offered.mpr hPast)

theorem line_sameMaturity_iff :
    ∃ after,
      newWallet.rescan cheapCrypto openSigner
            (lineBlocks [smallCoin] 20) =
          some after ∧
        after.tipHeight.toNat = 20 ∧
        after.balance.confirmed.toInt =
          totalValue
            (after.utxos.filter
              (mature after.params after.tipHeight)) ∧
        ∀ entry ∈ after.utxos,
          (SameMaturity after entry ↔
            after.RulesMeet entry.coin) := by
  rcases @exists_rescan newWallet rfl
    (lineBlocks [smallCoin] 20) with ⟨after, hRescan⟩
  exact ⟨after, hRescan,
    @rescan_sameMaturity_iff cheapCrypto openSigner .regtest _
      _ regtestParams newWallet after rfl
      (activeBlocks_line payable_smallCoin (by decide))
      hRescan⟩

end Sample

end Amarian
