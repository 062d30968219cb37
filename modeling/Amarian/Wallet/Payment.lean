import Amarian.Wallet.Acceptance
import Amarian.Wallet.Rescan

/-
  What a payment is made of.

  Key definitions include:
    * `Wallet.Stocked`
    * `Wallet.Made`

  Key theorems include:
    * `Wallet.payment_eq_some`
    * `Wallet.Stocked.made`
-/

------------------------------------------------------------
-- What A Send Makes
------------------------------------------------------------

namespace Amarian

namespace Wallet

section Making

variable {c : Crypto} {sort : ValueSort} {signer : Signer}
variable {wallet : Wallet} {lock : Lock}
variable {amount feeRate : Int64}

/- The coins that are selected for a payment. -/
def selectionFor
    (sort : ValueSort)
    (wallet : Wallet)
    (amount feeRate : Int64) : CoinSelection :=
  selectCoins sort wallet.spendable amount
    (effectiveRate feeRate)

def keyFor
    (c : Crypto)
    (wallet : Wallet)
    (entry : UtxoEntry) : ByteVec :=
  deriveSecp256k1Key c wallet.seed entry.accountId
    entry.derivationIndex

theorem effectiveRate_pos
    (feeRate : Int64) :
    0 < (effectiveRate feeRate).toInt := by
  unfold effectiveRate
  split
  · decide
  · rename_i hRate
    exact Int64.lt_iff_toInt_lt.mp (Int64.not_le.mp hRate)

theorem target_builderFor
    (wallet : Wallet)
    (lock : Lock)
    (amount feeRate : Int64) :
    (wallet.builderFor lock amount feeRate).target =
      amount :=
  Int64.zero_add amount

/- The builder's account is the one an entry names. -/
theorem privateKeyFor_builderFor
    (c : Crypto)
    (wallet : Wallet)
    (lock : Lock)
    (amount feeRate : Int64)
    (entry : UtxoEntry) :
    (wallet.builderFor lock amount feeRate).privateKeyFor c
        entry =
      keyFor c wallet entry := by
  unfold TxBuilder.privateKeyFor keyFor
  split
  · rename_i hZero
    rw [hZero]
    rfl
  · rfl

/- The transaction that spends a selection. -/
def paymentTx
    (wallet : Wallet)
    (lock : Lock)
    (amount feeRate : Int64)
    (selected : CoinSelection)
    (witnesses : List Witness) : Transaction :=
  { version := 1
    inputs := selected.inputs.map TxBuilder.inputFor
    outputs :=
      { amount, lock } ::
        (wallet.builderFor lock amount
          feeRate).changeOutputs selected.change
    locktime := 0
    witnesses := witnesses
    coinbaseData := [] }

theorem payment_eq_some
    {signed : SignedTx} :
    let selected := selectionFor sort wallet amount feeRate
    let tx := wallet.paymentTx lock amount feeRate selected
    wallet.payment c sort signer lock amount feeRate =
        some signed ↔
      selected.success = true ∧
        ∃ witnesses,
          TxBuilder.signInputs c signer wallet.params.chainId
              (tx []) (computeSigHashMidstates c (tx [])) 0
              (selected.inputs.map UtxoEntry.coin)
              (selected.inputs.map (keyFor c wallet))
              (selected.inputs.map
                fun _ => schemeSchnorrSecp256k1) =
            some witnesses ∧
          signed =
            { tx := tx witnesses
              txid := (tx []).txid c
              fee :=
                TxBuilder.sumOf
                    ((selected.inputs.map UtxoEntry.coin).map
                      fun coin => coin.output.amount) -
                  TxBuilder.sumOf
                    ((tx []).outputs.map
                      TxOutput.amount) } := by
  intro selected tx
  have hSelection :
      (wallet.builderFor lock amount feeRate).selection
          sort =
        selected := by
    rw [TxBuilder.selection, target_builderFor]
    rfl
  have hKeys :
      (wallet.builderFor lock amount feeRate).privateKeyFor
          c =
        keyFor c wallet :=
    funext fun entry =>
      privateKeyFor_builderFor c wallet lock amount feeRate
        entry
  have hAssemble :
      (wallet.builderFor lock amount feeRate).assemble c
          selected =
        { tx := tx []
          spentCoins := selected.inputs.map UtxoEntry.coin
          inputPrivateKeys :=
            selected.inputs.map (keyFor c wallet)
          inputSchemes :=
            selected.inputs.map
              fun _ => schemeSchnorrSecp256k1 } := by
    rw [TxBuilder.assemble, hKeys]
    rfl
  have hSign := @TxBuilder.sign_eq_some c signer
    (wallet.builderFor lock amount feeRate) selected signed
  dsimp only at hSign
  rw [hAssemble] at hSign
  unfold payment
  constructor
  · intro hPayment
    rcases Option.bind_eq_some_iff.mp hPayment with
      ⟨utx, hBuild, hSigned⟩
    rcases TxBuilder.build_eq_some.mp hBuild with
      ⟨-, -, hSuccess, rfl⟩
    rw [hSelection] at hSuccess hSigned
    rw [hAssemble] at hSigned
    exact ⟨hSuccess, hSign.mp hSigned⟩
  · rintro ⟨hSuccess, hSigned⟩
    have hUtxos : wallet.spendable ≠ [] := by
      intro hNone
      have hNothing : selected = noSelection amount := by
        change selectCoins sort wallet.spendable amount _ = _
        rw [hNone, selectCoins,
          if_pos (Or.inr List.isEmpty_nil)]
      rw [hNothing] at hSuccess
      cases hSuccess
    refine Option.bind_eq_some_iff.mpr ⟨_,
      TxBuilder.build_eq_some.mpr ⟨List.cons_ne_nil _ _,
        hUtxos, ?_, rfl⟩, ?_⟩
    · rw [hSelection]
      exact hSuccess
    · rw [hSelection, hAssemble]
      exact hSign.mpr hSigned

/- There is no change, or one output of what is left. -/
theorem changeOutputs_cases
    (builder : TxBuilder)
    (change : Int64) :
    builder.changeOutputs change = [] ∨
      0 < change.toInt ∧
        ∃ own,
          builder.changeOutputs change =
              [{ amount := change, lock := own }] ∧
            (builder.utxos ≠ [] →
              ∃ entry ∈ builder.utxos,
                own = entry.coin.output.lock) := by
  unfold TxBuilder.changeOutputs
  split
  · rename_i hChange
    refine Or.inr ⟨Int64.lt_iff_toInt_lt.mp hChange.1, ?_⟩
    rcases builder.utxos with _ | ⟨entry, rest⟩
    · exact ⟨_, rfl, fun hSome => absurd rfl hSome⟩
    · exact ⟨_, rfl, fun _ =>
        ⟨entry, List.mem_cons_self, rfl⟩⟩
  · exact Or.inl rfl

end Making

------------------------------------------------------------
-- What A Payment Is
------------------------------------------------------------

/- The coins of a wallet, as far as payments need them. -/
structure Stocked
    (c : Crypto)
    (signer : Signer)
    (coins : Utxo)
    (wallet : Wallet) : Prop where
  found :
    Found (wallet.ownedLocks c signer) coins wallet.utxos
  values : ∀ entry ∈ wallet.utxos, 0 ≤ entry.amount.toInt
  real :
    ∀ entry ∈ wallet.utxos,
      entry.outpoint.isNull = false
  bounded : totalValue wallet.utxos ≤ maxMoney.toInt

/- A payment from some coins, signed with their keys. -/
structure Made
    (c : Crypto)
    (signer : Signer)
    (coins : Utxo)
    (wallet : Wallet)
    (lock : Lock)
    (amount : Int64)
    (entries : List UtxoEntry)
    (signed : SignedTx) : Prop where
  paying : Paying coins signed.tx entries
  outputs :
    ∃ change,
      signed.tx.outputs = { amount, lock } :: change ∧
        change.length ≤ 1 ∧
        ∀ output ∈ change,
          ∃ key ∈ wallet.ownedLocks c signer,
            key.lock = output.lock
  fee :
    signed.fee.toInt =
      totalValue entries - paidOut signed.tx
  authorised :
    authoriseInputs c wallet.params signed.tx
          (computeSigHashMidstates c signed.tx) 0
          (entries.map UtxoEntry.coin)
          signed.tx.witnesses =
        .ok () ↔
      ∀ entry ∈ entries,
        OpensWith c signer (keyFor c wallet entry)
          entry.coin

namespace Stocked

variable {c : Crypto} {sort : ValueSort} {signer : Signer}
variable {coins : Utxo} {wallet : Wallet} {lock : Lock}
variable {amount feeRate : Int64}

theorem spendable_sublist
    (wallet : Wallet) :
    wallet.spendable.Sublist wallet.utxos :=
  List.filter_sublist

theorem totalValue_spendable_le
    (hStocked : Stocked c signer coins wallet) :
    totalValue wallet.spendable ≤ maxMoney.toInt := by
  refine Int.le_trans
    (List.Sublist.sum_le_sum
      ((spendable_sublist wallet).map _) ?_)
    hStocked.bounded
  intro amount hAmount
  rcases List.mem_map.mp hAmount with ⟨entry, hEntry, rfl⟩
  exact hStocked.values entry hEntry

theorem summable
    (hStocked : Stocked c signer coins wallet) :
    Summable wallet.spendable := by
  have hMoney : maxMoney.toInt = 83999999932170000 := rfl
  have hBounded := hStocked.totalValue_spendable_le
  constructor
  · exact fun entry hEntry => hStocked.values entry
      ((spendable_sublist wallet).subset hEntry)
  · omega

/- The first coins in the order, and what is known of them. -/
theorem taken
    (hStocked : Stocked c signer coins wallet)
    (sort : ValueSort)
    (count : Nat) :
    let entries := (sort.order wallet.spendable).take count
    Found (wallet.ownedLocks c signer) coins entries ∧
      (∀ entry ∈ entries,
        entry ∈ wallet.spendable) := by
  intro entries
  have hPerm := sort.perm wallet.spendable
  have hMember : ∀ entry ∈ entries,
      entry ∈ wallet.spendable :=
    fun entry hEntry =>
      hPerm.mem_iff.mp (List.mem_of_mem_take hEntry)
  have hSpendable := hStocked.found.sublist
    (spendable_sublist wallet)
  refine ⟨⟨?_, ?_, ?_⟩, hMember⟩
  · exact fun entry hEntry =>
      hSpendable.held entry (hMember entry hEntry)
  · have hAll :
        ((sort.order wallet.spendable).map
          UtxoEntry.outpoint).Nodup :=
      (hPerm.map _).nodup_iff.mpr hSpendable.once
    exact hAll.sublist ((List.take_sublist _ _).map _)
  · exact fun entry hEntry =>
      hSpendable.keyed entry (hMember entry hEntry)

/- Every coin of the wallet is under a lock it derived. -/
theorem lock_form
    (hStocked : Stocked c signer coins wallet)
    {entry : UtxoEntry}
    (hEntry : entry ∈ wallet.utxos) :
    entry.coin.output.lock.version =
        lockVersionConditionCommitment ∧
      entry.coin.output.lock.program.length = 32 := by
  rcases hStocked.found.keyed entry hEntry with
    ⟨key, hKey, hLock, -⟩
  rw [← hLock]
  exact program_ownedLocks hKey

/- The change that comes after the recipient's output. -/
theorem change
    (lock : Lock)
    (hStocked : Stocked c signer coins wallet)
    {selected : CoinSelection}
    (hSelected :
      Selected amount (effectiveRate feeRate)
        (sort.order wallet.spendable) selected) :
    let change :=
      (wallet.builderFor lock amount
        feeRate).changeOutputs selected.change
    change.length ≤ 1 ∧
      (∀ output ∈ change,
        (∃ key ∈ wallet.ownedLocks c signer,
          key.lock = output.lock) ∧
          output.lock.program.length = 32 ∧
          0 ≤ output.amount.toInt) ∧
      (change.map fun output => output.amount.toInt).sum ≤
        selected.change.toInt := by
  intro change
  have hPositive := hSelected.change
  rcases changeOutputs_cases
    (wallet.builderFor lock amount feeRate)
    selected.change with hNone | ⟨-, own, hOne, hOwn⟩
  · have hEmpty : change = [] := hNone
    rw [hEmpty]
    exact ⟨Nat.zero_le _, by simp, hPositive⟩
  · have hSingle :
        change =
          [{ amount := selected.change, lock := own }] :=
      hOne
    have hSpendable : wallet.spendable ≠ [] := by
      intro hNothing
      have hWithin := hSelected.count.within
      have hCount := hSelected.count.positive
      rw [(sort.perm _).length_eq, hNothing] at hWithin
      exact Nat.not_le_of_gt hCount hWithin
    rcases hOwn hSpendable with ⟨entry, hEntry, hSame⟩
    have hMember := (spendable_sublist wallet).subset hEntry
    rcases hStocked.found.keyed entry hMember with
      ⟨key, hKey, hKeyLock, -⟩
    rw [hSingle]
    refine ⟨Nat.le_refl 1, ?_, ?_⟩
    · intro output hOutput
      rcases List.mem_singleton.mp hOutput with rfl
      refine ⟨⟨key, hKey, hKeyLock.trans hSame.symm⟩, ?_,
        hPositive⟩
      rw [hSame]
      exact (hStocked.lock_form hMember).2
    · exact Int.le_of_eq (Int.add_zero _)

section Selections

variable {selected : CoinSelection}

theorem paidOut_paymentTx
    (wallet : Wallet)
    (lock : Lock)
    (amount feeRate : Int64)
    (selected : CoinSelection)
    (witnesses : List Witness) :
    paidOut
        (wallet.paymentTx lock amount feeRate selected
          witnesses) =
      amount.toInt +
        (((wallet.builderFor lock amount
              feeRate).changeOutputs selected.change).map
          fun output => output.amount.toInt).sum :=
  List.sum_cons

/- A signed payment spends what it selected. -/
theorem paying
    (hStocked : Stocked c signer coins wallet)
    (hLock : lock.program.length = 32)
    (hAmount : 0 < amount.toInt)
    (hSelected :
      Selected amount (effectiveRate feeRate)
        (sort.order wallet.spendable) selected)
    {witnesses : List Witness}
    (hCount : witnesses.length = selected.inputs.length)
    (hEach : ∀ witness ∈ witnesses, SinglySigned witness) :
    Paying coins
      (wallet.paymentTx lock amount feeRate selected
        witnesses)
      selected.inputs := by
  rcases hStocked.taken sort selected.inputs.length with
    ⟨hFound, hSpendable⟩
  rw [← hSelected.inputs] at hFound hSpendable
  have hMember : ∀ entry ∈ selected.inputs,
      entry ∈ wallet.utxos :=
    fun entry hEntry =>
      (spendable_sublist wallet).subset
        (hSpendable entry hEntry)
  rcases hStocked.change lock hSelected with
    ⟨hFew, hOwn, hLess⟩
  constructor
  case funded =>
    exact List.length_pos_iff.mp hSelected.count.positive
  case inputs => rfl
  case data => rfl
  case counted => exact hCount
  case signed => exact hEach
  case pays => exact List.cons_ne_nil _ _
  case few => exact Nat.succ_le_succ hFew
  case programs =>
    intro output hOutput
    rcases List.mem_cons.mp hOutput with rfl | hChange
    · exact hLock
    · exact (hOwn output hChange).2.1
  case amounts =>
    intro output hOutput
    rcases List.mem_cons.mp hOutput with rfl | hChange
    · exact Int.le_of_lt hAmount
    · exact (hOwn output hChange).2.2
  case held => exact hFound.held
  case once => exact hFound.once
  case real =>
    exact fun entry hEntry =>
      hStocked.real entry (hMember entry hEntry)
  case values =>
    exact fun entry hEntry =>
      hStocked.values entry (hMember entry hEntry)
  case bounded =>
    have hOrdered :=
      hStocked.summable.perm (sort.perm wallet.spendable)
    have hTaken := totalValue_take_le hOrdered.nonneg
      selected.inputs.length
    rw [← hSelected.inputs] at hTaken
    have hSame :
        totalValue (sort.order wallet.spendable) =
          totalValue wallet.spendable :=
      ((sort.perm wallet.spendable).map _).sum_eq
    have hAll := hStocked.totalValue_spendable_le
    omega
  case fee =>
    have hRate := effectiveRate_pos feeRate
    have hOnce :
        1 * ((208 + 2564 * selected.inputs.length : Nat) :
            Int) ≤
          (effectiveRate feeRate).toInt *
            (208 + 2564 * selected.inputs.length : Nat) :=
      Int.mul_le_mul_of_nonneg_right (by omega) (by omega)
    have hFee := hSelected.fee
    have hBalance := hSelected.balance
    rw [cost, estimateTxWeight_one] at hFee
    rw [paidOut_paymentTx]
    omega

end Selections

/-
  A payment spends the fewest of the largest coins that pay
  for it, and says what it leaves as a fee.
-/
theorem made
    (hStocked : Stocked c signer coins wallet)
    (hSigns : SignsWell signer c)
    (hLock : lock.program.length = 32)
    {signed : SignedTx}
    (hPayment :
      wallet.payment c sort signer lock amount feeRate =
        some signed)
    (hFits :
      cost amount (effectiveRate feeRate)
          signed.tx.inputs.length <
        2 ^ 63) :
    ∃ count,
      LeastCovers amount (effectiveRate feeRate)
          (sort.order wallet.spendable) count ∧
        Made c signer coins wallet lock amount
          ((sort.order wallet.spendable).take count)
          signed := by
  rcases payment_eq_some.mp hPayment with
    ⟨hSuccess, witnesses, hWitnesses, rfl⟩
  generalize hSame :
    selectionFor sort wallet amount feeRate = selected
    at hSuccess hWitnesses hFits
  change cost amount (effectiveRate feeRate)
    (selected.inputs.map TxBuilder.inputFor).length < _
    at hFits
  rw [List.length_map] at hFits
  rw [selectionFor] at hSame
  rcases selectCoins_spec sort
    (Int.le_of_lt (effectiveRate_pos feeRate))
    hStocked.summable (hSame.symm ▸ hSuccess)
    (hSame.symm ▸ hFits) with ⟨hAmount, hSelected⟩
  rw [hSame] at hSelected
  have hLocks : ∀ entry ∈ selected.inputs,
      entry.coin.output.lock.version =
        lockVersionConditionCommitment := by
    intro entry hEntry
    rw [hSelected.inputs] at hEntry
    exact (hStocked.lock_form
      ((spendable_sublist wallet).subset
        ((hStocked.taken sort _).2 entry hEntry))).1
  rcases signInputs_spec hSigns hLocks hWitnesses with
    ⟨hCount, hEach, hOpens⟩
  have hPaying := hStocked.paying hLock hAmount hSelected
    hCount hEach
  rcases hStocked.change lock hSelected with
    ⟨hFew, hOwn, -⟩
  refine ⟨selected.inputs.length, hSelected.count, ?_⟩
  rw [← hSelected.inputs]
  constructor
  case paying => exact hPaying
  case outputs =>
    exact ⟨_, rfl, hFew, fun output hOutput =>
      (hOwn output hOutput).1⟩
  case fee => exact hPaying.toInt_fee
  case authorised => exact hOpens witnesses

end Stocked

end Wallet

end Amarian
