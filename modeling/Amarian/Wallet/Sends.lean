import Amarian.Wallet.Sending

/-
  Payments that are made one after another.

  No rescan comes between them, and a payment leaves the
  coins that the next one chooses from as they were.

  Key definitions include:
    * `Wallet.SendCall`
    * `Wallet.runSends`
    * `Wallet.sentTxs`
    * `Wallet.CanPay`

  Key theorems include:
    * `Wallet.sentTxs_eq`
    * `Wallet.made_share`
    * `Wallet.sends_disjoint_iff`
-/

------------------------------------------------------------
-- Calls
------------------------------------------------------------

namespace Amarian

namespace Wallet

inductive SendCall where
  | send
      (address : ByteVec)
      (amount feeRate : Int64)
  | sendToLock
      (lock : Lock)
      (amount feeRate : Int64)
deriving DecidableEq

namespace SendCall

/- Whom a call pays, if its address is one. -/
def lock
    (params : ChainParams) : SendCall → Option Lock
  | .send address _ _ =>
      addressToLock address (hrpFor params)
  | .sendToLock lock _ _ => some lock

def amount : SendCall → Int64
  | .send _ amount _ => amount
  | .sendToLock _ amount _ => amount

def feeRate : SendCall → Int64
  | .send _ _ feeRate => feeRate
  | .sendToLock _ _ feeRate => feeRate

end SendCall

section Calls

variable (c : Crypto) (sort : ValueSort) (signer : Signer)

def perform
    (wallet : Wallet) :
    SendCall → Option (SendResult × Wallet)
  | .send address amount feeRate =>
      wallet.send c sort signer address amount feeRate
  | .sendToLock lock amount feeRate =>
      wallet.sendToLock c sort signer lock amount feeRate

/- The transaction that a call makes. -/
def made
    (wallet : Wallet)
    (call : SendCall) : Option SignedTx :=
  match call.lock wallet.params with
  | none => none
  | some lock =>
      wallet.payment c sort signer lock call.amount
        call.feeRate

/- A call that fails leaves the wallet as it was. -/
def runSends
    (wallet : Wallet) :
    List SendCall → List SendResult × Wallet
  | [] => ([], wallet)
  | call :: calls =>
      match wallet.perform c sort signer call with
      | none => runSends wallet calls
      | some (result, after) =>
          let rest := runSends after calls
          (result :: rest.1, rest.2)

/- The transactions whose bytes a run returns. -/
def sentTxs
    (wallet : Wallet) : List SendCall → List SignedTx
  | [] => []
  | call :: calls =>
      match wallet.perform c sort signer call with
      | none => sentTxs wallet calls
      | some (_, after) =>
          (wallet.made c sort signer call).toList ++
            sentTxs after calls

end Calls

def SignedTx.spends
    (signed : SignedTx) : List OutPoint :=
  signed.tx.inputs.map TxInput.outpoint

/-
  That the wallet's coins pay for a call, and that the keys
  of the coins it chooses sign.
-/
structure CanPay
    (c : Crypto)
    (sort : ValueSort)
    (signer : Signer)
    (wallet : Wallet)
    (call : SendCall)
    (lock : Lock) : Prop where
  address : call.lock wallet.params = some lock
  selects :
    (selectCoins sort wallet.spendable call.amount
      (effectiveRate call.feeRate)).success = true
  signs :
    let selected :=
      selectCoins sort wallet.spendable call.amount
        (effectiveRate call.feeRate)
    let tx :=
      wallet.paymentTx lock call.amount call.feeRate
        selected []
    ∃ witnesses,
      TxBuilder.signInputs c signer wallet.params.chainId
          tx (computeSigHashMidstates c tx) 0
          (selected.inputs.map UtxoEntry.coin)
          (selected.inputs.map (keyFor c wallet))
          (selected.inputs.map
            fun _ => schemeSchnorrSecp256k1) =
        some witnesses

------------------------------------------------------------
-- One Call
------------------------------------------------------------

section OneCall

variable {c : Crypto} {sort : ValueSort} {signer : Signer}
variable {wallet : Wallet}

/- What a call returns, and what it records. -/
theorem perform_eq
    (call : SendCall) :
    wallet.perform c sort signer call =
      (wallet.made c sort signer call).map fun signed =>
        (resultOf signed,
          { wallet with
            db :=
              wallet.db.storeTx
                { txid := signed.txid
                  height := -1
                  received := 0
                  sent := call.amount
                  fee := signed.fee } }) := by
  cases call with
  | send address amount feeRate =>
      rw [perform, send, made, SendCall.lock]
      cases addressToLock address (hrpFor wallet.params) with
      | none => rfl
      | some lock => rfl
  | sendToLock lock amount feeRate => rfl

/- What is recorded is not looked at by the next call. -/
theorem made_storeTx
    (stored : StoredTransaction)
    (call : SendCall) :
    made c sort signer
        { wallet with db := wallet.db.storeTx stored } call =
      wallet.made c sort signer call :=
  rfl

theorem exists_made_iff
    {call : SendCall} :
    (∃ signed, wallet.made c sort signer call = some signed) ↔
      ∃ lock, CanPay c sort signer wallet call lock := by
  constructor
  · rintro ⟨signed, hMade⟩
    unfold made at hMade
    split at hMade
    · cases hMade
    rename_i lock hLock
    rcases payment_eq_some.mp hMade with
      ⟨hSuccess, witnesses, hWitnesses, -⟩
    exact ⟨lock, hLock, hSuccess, witnesses, hWitnesses⟩
  · rintro ⟨lock, hLock, hSuccess, witnesses, hWitnesses⟩
    rw [made, hLock]
    exact ⟨_, payment_eq_some.mpr
      ⟨hSuccess, witnesses, hWitnesses, rfl⟩⟩

/- The second pass takes the largest coin in any case. -/
theorem head_selectCoins
    {utxos : List UtxoEntry}
    {target feeRate : Int64}
    (hSuccess :
      (selectCoins sort utxos target feeRate).success =
        true) :
    ∃ entry rest,
      (sort.order utxos).head? = some entry ∧
        (selectCoins sort utxos target feeRate).inputs =
          entry :: rest := by
  unfold selectCoins at hSuccess ⊢
  split at hSuccess
  · cases hSuccess
  rename_i hAsked
  rw [if_neg hAsked]
  dsimp only at hSuccess ⊢
  split at hSuccess
  · cases hSuccess
  rename_i hFunds
  rw [if_neg hFunds]
  split at hSuccess
  · cases hSuccess
  rename_i hEnough
  rw [if_neg hEnough]
  rcases hOrder : sort.order utxos with _ | ⟨entry, rest⟩
  · have hNone := (sort.perm utxos).length_eq
    rw [hOrder] at hNone
    rw [List.length_eq_zero_iff.mp hNone.symm] at hAsked
    exact absurd (Or.inr rfl) hAsked
  · rw [gather_take (Or.inr ⟨rfl, rfl⟩)]
    exact ⟨entry, _, rfl, rfl⟩

/- So it is spent by whatever is sent. -/
theorem made_spends
    {call : SendCall}
    {signed : SignedTx}
    (hMade : wallet.made c sort signer call = some signed) :
    ∃ entry,
      (sort.order wallet.spendable).head? = some entry ∧
        entry.outpoint ∈ signed.spends := by
  unfold made at hMade
  split at hMade
  · cases hMade
  rcases payment_eq_some.mp hMade with
    ⟨hSuccess, witnesses, -, rfl⟩
  rcases head_selectCoins hSuccess with
    ⟨entry, rest, hHead, hInputs⟩
  refine ⟨entry, hHead, ?_⟩
  rw [SignedTx.spends, paymentTx, List.map_map,
    selectionFor, hInputs]
  exact List.mem_cons_self

theorem made_share
    {call other : SendCall}
    {signed next : SignedTx}
    (hMade : wallet.made c sort signer call = some signed)
    (hNext : wallet.made c sort signer other = some next) :
    ¬List.Disjoint signed.spends next.spends := by
  intro hDisjoint
  rcases made_spends hMade with ⟨entry, hHead, hSpent⟩
  rcases made_spends hNext with ⟨again, hAgain, hTwice⟩
  cases hHead.symm.trans hAgain
  exact hDisjoint hSpent hTwice

end OneCall

------------------------------------------------------------
-- Many Calls
------------------------------------------------------------

section ManyCalls

variable {c : Crypto} {sort : ValueSort} {signer : Signer}

theorem runSends_eq
    (wallet : Wallet)
    (calls : List SendCall) :
    (wallet.runSends c sort signer calls).1 =
      (wallet.sentTxs c sort signer calls).map resultOf := by
  induction calls generalizing wallet with
  | nil => rfl
  | cons call calls ih =>
      rw [runSends, sentTxs, perform_eq]
      cases wallet.made c sort signer call with
      | none => exact ih wallet
      | some signed => exact congrArg _ (ih _)

/- Each call is answered from the wallet of the start. -/
theorem sentTxs_eq
    (wallet : Wallet)
    (calls : List SendCall) :
    wallet.sentTxs c sort signer calls =
      calls.filterMap (wallet.made c sort signer) := by
  have hStep : ∀ later : Wallet,
      later.made c sort signer =
        wallet.made c sort signer →
      later.sentTxs c sort signer calls =
        calls.filterMap (wallet.made c sort signer) := by
    induction calls with
    | nil => exact fun _ _ => rfl
    | cons call calls ih =>
        intro later hSame
        rw [sentTxs, perform_eq, hSame, List.filterMap_cons]
        cases hMade : wallet.made c sort signer call with
        | none => exact ih later hSame
        | some signed =>
            refine congrArg _ (ih _ ?_)
            rw [← hSame]
            exact funext (made_storeTx _)
  exact hStep wallet rfl

/-
  The payments spend different coins exactly when no two of
  the calls could each be paid.
-/
theorem sends_disjoint_iff
    (c : Crypto)
    (sort : ValueSort)
    (signer : Signer)
    (wallet : Wallet)
    (calls : List SendCall) :
    let sent := wallet.sentTxs c sort signer calls
    (wallet.runSends c sort signer calls).1 =
        sent.map resultOf ∧
      (sent.Pairwise
          (fun signed next =>
            List.Disjoint signed.spends next.spends) ↔
        calls.Pairwise
          (fun call other =>
            ¬((∃ lock,
                CanPay c sort signer wallet call lock) ∧
              ∃ lock,
                CanPay c sort signer wallet other lock))) := by
  intro sent
  refine ⟨runSends_eq wallet calls, ?_⟩
  have hSent : sent = _ := sentTxs_eq wallet calls
  rw [hSent, List.pairwise_filterMap]
  constructor
  · refine List.Pairwise.imp ?_
    intro call other hDisjoint hPaid
    rcases exists_made_iff.mpr hPaid.1 with
      ⟨signed, hMade⟩
    rcases exists_made_iff.mpr hPaid.2 with ⟨next, hNext⟩
    exact made_share hMade hNext
      (hDisjoint signed hMade next hNext)
  · refine List.Pairwise.imp ?_
    intro call other hUnpaid signed hMade next hNext
    exact absurd
      ⟨exists_made_iff.mp ⟨signed, hMade⟩,
        exists_made_iff.mp ⟨next, hNext⟩⟩
      hUnpaid

end ManyCalls

end Wallet

------------------------------------------------------------
-- Samples
------------------------------------------------------------

namespace Sample

open Wallet

def twoSends : List SendCall :=
  [.send zeroAddress (exactAmount 1) 1,
    .send zeroAddress (exactAmount 2) 1]

/- Two payments, and a coin that both of them spend. -/
theorem two_sends_conflict :
    ∃ wallet first second,
      newWallet.rescan cheapCrypto openSigner coinsBlocks =
          some wallet ∧
        wallet.sentTxs cheapCrypto valueSort openSigner
            twoSends =
          [first, second] ∧
        (wallet.runSends cheapCrypto valueSort openSigner
            twoSends).1 =
          [resultOf first, resultOf second] ∧
        ∃ outpoint,
          outpoint ∈ first.spends ∧
            outpoint ∈ second.spends := by
  rcases exists_filled with ⟨wallet, hFilled⟩
  have hMade : ∀ count, 0 < count → count ≤ 7518 →
      ∃ signed,
        wallet.made cheapCrypto valueSort openSigner
            (.send zeroAddress (exactAmount count) 1) =
          some signed := by
    intro count hSome hMost
    rcases hFilled.payment valueSort zeroLock hSome hMost
      with ⟨signed, hPayment, -⟩
    refine ⟨signed, ?_⟩
    rw [made, SendCall.lock, hFilled.params,
      addressToLock_zeroAddress]
    exact hPayment
  rcases hMade 1 (by decide) (by decide) with
    ⟨first, hFirst⟩
  rcases hMade 2 (by decide) (by decide) with
    ⟨second, hSecond⟩
  have hSent :
      wallet.sentTxs cheapCrypto valueSort openSigner
          twoSends =
        [first, second] := by
    rw [sentTxs_eq, twoSends, List.filterMap_cons, hFirst,
      List.filterMap_cons, hSecond]
    rfl
  have hShare := made_share hFirst hSecond
  rw [List.disjoint_left] at hShare
  push Not at hShare
  refine ⟨wallet, first, second, hFilled.rescan, hSent, ?_,
    hShare⟩
  rw [runSends_eq, hSent]
  rfl

end Sample

end Amarian
