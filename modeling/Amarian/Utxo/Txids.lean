import Amarian.Consensus.Rules
import Amarian.Primitives.Codec
import Amarian.Utxo.Reversal

/-
  Transaction ids along a history of transactions.

  A history is traced if its ids are distinct, the coins come
  from it, and what its transactions spent is gone.  The next
  transaction then has a new id: a coinbase because of the
  height in its input, any other because a copy of it would
  spend what is gone.

  Key definitions include:
    * `Utxo.Traced`

  Key theorems include:
    * `Utxo.Traced.connectSpends`
    * `Utxo.Traced.connectBlock`
-/

------------------------------------------------------------
-- Checks That Create Nothing
------------------------------------------------------------

namespace Amarian

/- A verdict other than that an output already existed. -/
abbrev CreatesAnew
    {α : Type}
    (good : α → Prop) : Except ValidationError α → Prop :=
  ExceptSpares .txCreatesExistingOutpoint good

theorem rejectIf_createsAnew
    {condition : Bool}
    {error : ValidationError}
    (hError : error ≠ .txCreatesExistingOutpoint) :
    CreatesAnew (fun _ => condition = false)
      (rejectIf condition error) := by
  cases condition with
  | true => exact hError
  | false => rfl

theorem satisfyWithKeys_createsAnew
    (c : Crypto)
    (message : Hash256)
    (signature : Signature)
    (keys : List PublicKey) :
    CreatesAnew (fun _ => True)
      (satisfyWithKeys c message signature keys) := by
  induction keys with
  | nil => exact nofun
  | cons key keys ih =>
      unfold satisfyWithKeys
      split
      · exact ih
      · split
        · exact trivial
        · exact trivial
        · exact ih
        · exact ih
        · exact nofun

theorem satisfiesThreshold_createsAnew
    (c : Crypto)
    (message : Hash256)
    (keys : List PublicKey)
    (signatures : List Signature) :
    CreatesAnew (fun _ => True)
      (satisfiesThreshold c message keys signatures) := by
  induction signatures generalizing keys with
  | nil => exact trivial
  | cons signature rest ih =>
      unfold satisfiesThreshold
      apply (satisfyWithKeys_createsAnew c message signature
        keys).bind
      exact fun left _ => ih left

theorem authoriseInputs_createsAnew
    (c : Crypto)
    (params : ChainParams)
    (tx : Transaction)
    (midstates : SigHashMidstates)
    (index : Nat)
    (coins : List Coin)
    (witnesses : List Witness) :
    CreatesAnew (fun _ => True)
      (authoriseInputs c params tx midstates index coins
        witnesses) := by
  induction coins generalizing index witnesses with
  | nil => exact trivial
  | cons coin coins ih =>
      cases witnesses with
      | nil => exact trivial
      | cons witness witnesses =>
          have hInput :
              CreatesAnew (fun _ => True)
                (authoriseInput c params tx midstates index
                  coin.output witness) := by
            unfold authoriseInput
            split_ifs
            · exact nofun
            · exact trivial
            · exact nofun
            · exact trivial
            · exact satisfiesThreshold_createsAnew ..
          exact hInput.bind fun _ _ => ih _ _

theorem transactionFee_createsAnew
    (tx : Transaction)
    (spent : List Coin) :
    CreatesAnew (fun _ => True) (transactionFee tx spent) := by
  refine (rejectIf_createsAnew (by decide)).bind ?_
  intro _ _
  refine (rejectIf_createsAnew (by decide)).bind ?_
  intro _ _
  split
  · exact nofun
  · split
    · exact nofun
    · split
      · exact nofun
      · exact trivial

theorem checkTransactionInputs_createsAnew
    (c : Crypto)
    (tx : Transaction)
    (spent : List Coin)
    (height : UInt32)
    (params : ChainParams) :
    CreatesAnew (fun _ => True)
      (checkTransactionInputs c tx spent height params) := by
  have hAuthorised :
      CreatesAnew (fun _ => True)
        (checkSpendAuthorisation c tx spent params) := by
    refine (rejectIf_createsAnew (by decide)).bind ?_
    intro _ _
    refine (rejectIf_createsAnew (by decide)).bind ?_
    intro _ _
    refine (rejectIf_createsAnew (by decide)).bind ?_
    intro _ _
    exact authoriseInputs_createsAnew ..
  refine (rejectIf_createsAnew (by decide)).bind ?_
  intro _ _
  refine (rejectIf_createsAnew (by decide)).bind ?_
  intro _ _
  refine (rejectIf_createsAnew (by decide)).bind ?_
  intro _ _
  apply (transactionFee_createsAnew tx spent).bind
  intro fee _
  exact hAuthorised.bind fun _ _ => trivial

theorem accumulateFee_createsAnew
    (totalFees fee : Int64) :
    CreatesAnew (fun _ => True)
      (accumulateFee totalFees fee) := by
  unfold accumulateFee
  split
  · exact nofun
  · split
    · exact trivial
    · exact nofun

theorem checkCoinbaseAmount_createsAnew
    (block : Block)
    (totalFees : Int64)
    (params : ChainParams) :
    CreatesAnew (fun _ => True)
      (checkCoinbaseAmount block totalFees params) := by
  unfold checkCoinbaseAmount
  split
  · exact nofun
  · refine (rejectIf_createsAnew (by decide)).bind ?_
    intro _ _
    refine (rejectIf_createsAnew (by decide)).bind ?_
    intro _ _
    split
    · exact nofun
    · split
      · exact nofun
      · split
        · exact nofun
        · exact trivial

------------------------------------------------------------
-- Traced Histories
------------------------------------------------------------

namespace Utxo

/- What was spent is gone, and nothing else was removed. -/
theorem spendInputs_gone
    {inputs : List TxInput}
    {coins after : Utxo}
    {spent : List Coin}
    (hSpend : spendInputs inputs coins = .ok (spent, after)) :
    (∀ outpoint, coins outpoint = none →
        after outpoint = none) ∧
      ∀ input ∈ inputs,
        coins input.outpoint ≠ none ∧
          after input.outpoint = none := by
  induction inputs generalizing coins spent with
  | nil =>
      cases hSpend
      exact ⟨fun _ hNone => hNone, by simp⟩
  | cons input inputs ih =>
      rcases spendInputs_cons.mp hSpend with
        ⟨coin, rest, -, hCoin, hRest⟩
      rcases ih hRest with ⟨hKept, hGone⟩
      constructor
      · intro outpoint hNone
        apply hKept
        by_cases hSame : outpoint = input.outpoint
        · rw [hSame, Function.update_self]
        · rw [Function.update_of_ne hSame, hNone]
      · rw [List.forall_mem_cons]
        constructor
        · rw [hCoin]
          exact ⟨nofun, hKept _ (Function.update_self ..)⟩
        · intro other hOther
          rcases hGone other hOther with ⟨hThere, hAfter⟩
          refine ⟨?_, hAfter⟩
          intro hNone
          apply hThere
          by_cases hSame : other.outpoint = input.outpoint
          · rw [hSame, Function.update_self]
          · rw [Function.update_of_ne hSame, hNone]

theorem spendInputs_createsAnew
    (inputs : List TxInput)
    (coins : Utxo) :
    CreatesAnew (fun _ => True)
      (spendInputs inputs coins) := by
  induction inputs generalizing coins with
  | nil => exact trivial
  | cons input inputs ih =>
      unfold spendInputs
      split
      · exact nofun
      · exact (ih _).bind fun _ _ => trivial

theorem outPointFor_ne
    {txid : Hash256}
    {low high : Nat}
    (hLess : low < high)
    (hHigh : high < 2 ^ 32) :
    outPointFor txid high ≠ outPointFor txid low := by
  intro hSame
  have hIndex := congrArg OutPoint.index hSame
  have hNat := congrArg UInt32.toNat hIndex
  simp only [outPointFor, UInt32.toNat_ofNat'] at hNat
  omega

/- Outputs under a new id are created anew. -/
theorem addOutputs_createsAnew
    {txid : Hash256}
    {height : UInt32}
    {isCoinbase : Bool}
    {index : Nat}
    {outputs : List TxOutput}
    {coins : Utxo}
    (hFree :
      ∀ later, index ≤ later →
        later < index + outputs.length →
          coins (outPointFor txid later) = none)
    (hFew : index + outputs.length ≤ 2 ^ 32) :
    CreatesAnew
      (fun after =>
        ∀ outpoint, outpoint.txid ≠ txid →
          after outpoint = coins outpoint)
      (addOutputs txid height isCoinbase index outputs
        coins) := by
  induction outputs generalizing index coins with
  | nil => exact fun _ _ => rfl
  | cons output outputs ih =>
      rw [List.length_cons] at hFree hFew
      unfold addOutputs
      split
      · have hHere : coins (outPointFor txid index) = none :=
          hFree index (Nat.le_refl _) (by omega)
        rw [add_eq_some.mpr ⟨hHere, rfl⟩]
        apply (ih _ (by omega)).mono
        · intro after hAfter outpoint hOther
          rw [hAfter outpoint hOther,
            Function.update_of_ne]
          rintro rfl
          exact hOther rfl
        · intro later hLater hEnd
          rw [Function.update_of_ne
            (outPointFor_ne hLater (by omega))]
          exact hFree later (by omega) (by omega)
      · apply ih _ (by omega)
        intro later hLater hEnd
        exact hFree later (by omega) (by omega)

/-
  The ids of a history are distinct, every coin was created
  by it, and what its transactions spent is gone.
-/
structure Traced
    (c : Crypto)
    (height : Nat)
    (seen : List Transaction)
    (coins : Utxo) : Prop where
  distinct : (seen.map (Transaction.txid c)).Nodup
  created :
    ∀ outpoint, coins outpoint ≠ none →
      outpoint.txid ∈ seen.map (Transaction.txid c)
  spent :
    ∀ tx ∈ seen, tx.isCoinbase = false →
      ∀ input ∈ tx.inputs,
        input.outpoint.txid ∈
            seen.map (Transaction.txid c) ∧
          coins input.outpoint = none
  coinbases :
    ∀ tx ∈ seen, tx.isCoinbase = true →
      ∀ input ∈ tx.inputs, input.sequence.toNat ≤ height

/- Within a set of transactions an id stands for its inputs. -/
def IdsTellInputs
    (c : Crypto)
    (txs : Set Transaction) : Prop :=
  ∀ tx ∈ txs, ∀ other ∈ txs,
    tx.txid c = other.txid c → tx.inputs = other.inputs

/- Equal ids have equal preimages, and those the inputs. -/
theorem idsTellInputs
    {c : Crypto}
    {txs : Set Transaction}
    (hTxids :
      Set.InjOn c.doubleSha256
        (Transaction.serializeWithoutWitnesses '' txs))
    (hCounts :
      ∀ tx ∈ txs, tx.inputs.length < 2 ^ 64) :
    IdsTellInputs c txs := by
  intro tx hTx other hOther hId
  apply Transaction.inputs_eq_of_serialize_eq
    (hCounts tx hTx) (hCounts other hOther)
  exact hTxids (Set.mem_image_of_mem _ hTx)
    (Set.mem_image_of_mem _ hOther) hId

namespace Traced

variable {c : Crypto} {params : ChainParams}
variable {height : Nat} {seen : List Transaction}
variable {coins : Utxo}

theorem perm
    {others : List Transaction}
    (hTraced : Traced c height seen coins)
    (hPerm : seen.Perm others) :
    Traced c height others coins := by
  have hIds := hPerm.map (Transaction.txid c)
  exact
    { distinct := hIds.nodup_iff.mp hTraced.distinct
      created := fun outpoint hCoin =>
        hIds.mem_iff.mp (hTraced.created outpoint hCoin)
      spent := by
        intro tx hTx hPlain input hInput
        rcases hTraced.spent tx (hPerm.mem_iff.mpr hTx)
          hPlain input hInput with ⟨hId, hGone⟩
        exact ⟨hIds.mem_iff.mp hId, hGone⟩
      coinbases := fun tx hTx =>
        hTraced.coinbases tx (hPerm.mem_iff.mpr hTx) }

/- A transaction with a new id, after what it spends is gone. -/
theorem addOutputs
    (hTraced : Traced c height seen coins)
    {tx : Transaction}
    {later : Nat}
    {unspent : Utxo}
    {blockHeight : UInt32}
    {isCoinbase : Bool}
    (hFresh : tx.txid c ∉ seen.map (Transaction.txid c))
    (hFew : tx.outputs.length ≤ 2 ^ 32)
    (hKept :
      ∀ outpoint, coins outpoint = none →
        unspent outpoint = none)
    (hSpent :
      tx.isCoinbase = false →
        ∀ input ∈ tx.inputs,
          coins input.outpoint ≠ none ∧
            unspent input.outpoint = none)
    (hHeight : height ≤ later)
    (hCoinbase :
      tx.isCoinbase = true →
        ∀ input ∈ tx.inputs,
          input.sequence.toNat ≤ later) :
    CreatesAnew (Traced c later (tx :: seen))
      (Utxo.addOutputs (tx.txid c) blockHeight isCoinbase 0
        tx.outputs unspent) := by
  have hAbsent :
      ∀ outpoint, outpoint.txid = tx.txid c →
        unspent outpoint = none := by
    intro outpoint hId
    apply hKept
    by_contra hCoin
    apply hFresh
    rw [← hId]
    exact hTraced.created outpoint hCoin
  have hNe :
      ∀ outpoint : OutPoint,
        outpoint.txid ∈ seen.map (Transaction.txid c) →
          outpoint.txid ≠ tx.txid c := by
    intro outpoint hSeen hId
    rw [hId] at hSeen
    exact hFresh hSeen
  apply (addOutputs_createsAnew _ (by omega)).mono
  · intro after hAfter
    refine ⟨?_, ?_, ?_, ?_⟩
    · rw [List.map_cons]
      exact List.nodup_cons.mpr ⟨hFresh, hTraced.distinct⟩
    · intro outpoint hCoin
      rw [List.map_cons, List.mem_cons]
      by_cases hId : outpoint.txid = tx.txid c
      · exact .inl hId
      · right
        apply hTraced.created
        intro hNone
        apply hCoin
        rw [hAfter outpoint hId]
        exact hKept outpoint hNone
    · rw [List.forall_mem_cons, List.map_cons]
      constructor
      · intro hPlain input hInput
        rcases hSpent hPlain input hInput with
          ⟨hThere, hGone⟩
        have hId := hTraced.created _ hThere
        refine ⟨List.mem_cons_of_mem _ hId, ?_⟩
        rw [hAfter _ (hNe _ hId), hGone]
      · intro other hOther hPlain input hInput
        rcases hTraced.spent other hOther hPlain input hInput
          with ⟨hId, hGone⟩
        refine ⟨List.mem_cons_of_mem _ hId, ?_⟩
        rw [hAfter _ (hNe _ hId), hKept _ hGone]
    · rw [List.forall_mem_cons]
      refine ⟨hCoinbase, ?_⟩
      intro other hOther hForm input hInput
      exact (hTraced.coinbases other hOther hForm input
        hInput).trans hHeight
  · intro index _ _
    exact hAbsent _ rfl

variable {all : Set Transaction}

/- A copy of a transaction would spend what is gone. -/
theorem spend_fresh
    (hTraced : Traced c height seen coins)
    (hIds : IdsTellInputs c all)
    (hSeen : ∀ tx ∈ seen, tx ∈ all)
    {tx : Transaction}
    (hTx : tx ∈ all)
    (hPlain : tx.isCoinbase = false)
    (hInputs : tx.inputs ≠ [])
    (hThere :
      ∀ input ∈ tx.inputs, coins input.outpoint ≠ none) :
    tx.txid c ∉ seen.map (Transaction.txid c) := by
  intro hCopy
  rcases List.mem_map.mp hCopy with ⟨other, hOther, hId⟩
  have hSame := hIds other (hSeen other hOther) tx hTx hId
  have hForm : other.isCoinbase = false := by
    unfold Transaction.isCoinbase at hPlain ⊢
    rw [hSame]
    exact hPlain
  rcases List.exists_mem_of_ne_nil _ hInputs with
    ⟨input, hInput⟩
  apply hThere input hInput
  rw [← hSame] at hInput
  exact (hTraced.spent other hOther hForm input hInput).2

/- The height in a coinbase's input is new. -/
theorem coinbase_fresh
    (hTraced : Traced c height seen coins)
    (hIds : IdsTellInputs c all)
    (hSeen : ∀ tx ∈ seen, tx ∈ all)
    {tx : Transaction}
    {later : Nat}
    (hTx : tx ∈ all)
    (hForm : tx.isCoinbase = true)
    (hHeight : height < later)
    (hSequence :
      ∀ input ∈ tx.inputs, input.sequence.toNat = later) :
    tx.txid c ∉ seen.map (Transaction.txid c) := by
  intro hCopy
  rcases List.mem_map.mp hCopy with ⟨other, hOther, hId⟩
  have hSame := hIds other (hSeen other hOther) tx hTx hId
  have hOtherForm : other.isCoinbase = true := by
    unfold Transaction.isCoinbase at hForm ⊢
    rw [hSame]
    exact hForm
  have hInputs : tx.inputs ≠ [] := by
    intro hNone
    rw [Transaction.isCoinbase, hNone] at hForm
    cases hForm
  rcases List.exists_mem_of_ne_nil _ hInputs with
    ⟨input, hInput⟩
  have hNew := hSequence input hInput
  rw [← hSame] at hInput
  have hOld := hTraced.coinbases other hOther hOtherForm
    input hInput
  omega

/- One transaction after another. -/
theorem connectSpends
    (hTraced : Traced c height seen coins)
    (hIds : IdsTellInputs c all)
    (hSeen : ∀ tx ∈ seen, tx ∈ all)
    {txs : List Transaction}
    (hTxs : ∀ tx ∈ txs, tx ∈ all)
    (hInputs : ∀ tx ∈ txs, tx.inputs ≠ [])
    (hFew : ∀ tx ∈ txs, tx.outputs.length ≤ 2 ^ 32)
    (blockHeight : UInt32)
    (fees : Int64) :
    CreatesAnew
      (fun done => Traced c height (txs.reverse ++ seen)
        done.2.2)
      (Utxo.connectSpends c params blockHeight txs fees
        coins) := by
  induction txs generalizing seen coins fees with
  | nil => exact hTraced
  | cons tx txs ih =>
      rw [List.forall_mem_cons] at hTxs hInputs hFew
      unfold Utxo.connectSpends
      refine (rejectIf_createsAnew (by decide)).bind ?_
      intro _ hPlain
      cases hSpend : Utxo.spendInputs tx.inputs coins with
      | error error =>
          have hSpares :=
            spendInputs_createsAnew tx.inputs coins
          rw [hSpend] at hSpares
          exact hSpares
      | ok done =>
          rcases done with ⟨spent, unspent⟩
          rcases spendInputs_gone hSpend with ⟨hKept, hGone⟩
          have hFresh := hTraced.spend_fresh hIds hSeen
            hTxs.1 hPlain hInputs.1
            fun input hInput => (hGone input hInput).1
          apply ExceptSpares.bind
            (checkTransactionInputs_createsAnew ..)
          intro fee _
          apply ExceptSpares.bind
            (accumulateFee_createsAnew fees fee)
          intro total _
          have hNotMinted :
              tx.isCoinbase = true →
                ∀ input ∈ tx.inputs,
                  input.sequence.toNat ≤ height := by
            intro hForm
            rw [hPlain] at hForm
            cases hForm
          refine ExceptSpares.bind
            (hTraced.addOutputs hFresh hFew.1 hKept
              (fun _ => hGone) (Nat.le_refl height)
              hNotMinted) ?_
          intro created hCreated
          apply ExceptSpares.bind (ih hCreated
            (List.forall_mem_cons.mpr ⟨hTxs.1, hSeen⟩)
            hTxs.2 hInputs.2 hFew.2 total)
          intro rest hRest
          rw [List.reverse_cons, List.append_assoc]
          exact hRest

/- A whole block, whose coinbase carries its height. -/
theorem connectBlock
    (hTraced : Traced c height seen coins)
    (hIds : IdsTellInputs c all)
    (hSeen : ∀ tx ∈ seen, tx ∈ all)
    {block : Block}
    (hTxs : ∀ tx ∈ block.transactions, tx ∈ all)
    (hPlacement : checkCoinbasePlacement block = .ok ())
    (hInputs : ∀ tx ∈ block.transactions, tx.inputs ≠ [])
    (hFew :
      ∀ tx ∈ block.transactions,
        tx.outputs.length ≤ 2 ^ 32)
    (hHeight : height < block.header.height.toNat) :
    CreatesAnew
      (fun done =>
        Traced c block.header.height.toNat
          (block.transactions ++ seen) done.2)
      (Utxo.connectBlock c params block coins) := by
  unfold Utxo.connectBlock
  unfold checkCoinbasePlacement at hPlacement
  cases hBlock : block.transactions with
  | nil => exact nofun
  | cons first rest =>
      simp only [hBlock, except_check_eq_ok, rejectIf_eq_ok,
        Bool.not_eq_false'] at hPlacement
      rw [hBlock, List.forall_mem_cons] at hTxs hInputs hFew
      rcases hPlacement with ⟨hForm, -, hSequence⟩
      have hCarries :
          ∀ input ∈ first.inputs,
            input.sequence.toNat =
              block.header.height.toNat := by
        unfold Transaction.isCoinbase at hForm
        split at hForm
        · rename_i only hOnly
          rw [hOnly] at hSequence ⊢
          intro input hInput
          rw [List.mem_singleton.mp hInput]
          have hSame :
              only.sequence = block.header.height := by
            simpa using hSequence
          rw [hSame]
        · cases hForm
      have hFresh := hTraced.coinbase_fresh hIds hSeen hTxs.1
        hForm hHeight hCarries
      have hNotSpent :
          first.isCoinbase = false →
            ∀ input ∈ first.inputs,
              coins input.outpoint ≠ none ∧
                coins input.outpoint = none := by
        intro hPlain
        rw [hForm] at hPlain
        cases hPlain
      refine (rejectIf_createsAnew (by decide)).bind ?_
      intro _ _
      refine ExceptSpares.bind
        ((rejectIf_createsAnew (by decide)).bind fun _ _ =>
          hTraced.addOutputs hFresh hFew.1
            (fun _ hNone => hNone) hNotSpent
            (Nat.le_of_lt hHeight)
            fun _ input hInput =>
              (hCarries input hInput).le) ?_
      intro minted hMinted
      refine ExceptSpares.bind
        (hMinted.connectSpends hIds
          (List.forall_mem_cons.mpr ⟨hTxs.1, hSeen⟩)
          hTxs.2 hInputs.2 hFew.2 _ 0) ?_
      intro spends hSpends
      refine ExceptSpares.bind
        (checkCoinbaseAmount_createsAnew ..) ?_
      intro _ _
      apply hSpends.perm
      exact (((List.reverse_perm rest).append_right
        _).trans List.perm_middle)

end Traced

end Utxo

end Amarian
