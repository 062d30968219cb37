import Amarian.Utxo.Worth
import Amarian.Wallet.Fewest
import Amarian.Wallet.Sending

/-
  What a payment leaves as a fee, and what it weighs.

  The fee is estimated for a single output, however many
  recipients there are, and for inputs heavier than those
  that are signed with Schnorr keys.

  Key definitions include:
    * `Wallet.signedWeight`
    * `TxBuilder.Payable`
    * `TxBuilder.EstimateHolds`
    * `TxBuilder.PaysItsRate`

  Key theorems include:
    * `TxBuilder.Payable.signed`
    * `TxBuilder.estimateHolds_of_few`
    * `TxBuilder.paysItsRate_iff`
-/

------------------------------------------------------------
-- Refusals For A Fee
------------------------------------------------------------

namespace Amarian

def tooLowFee : Rejection :=
  { reason := .feeBelowRelayMinimum, rule := none }

section Refusals

variable {good : Unit → Prop}

theorem refuseIf_spares
    {condition : Bool}
    {reason : RejectReason}
    (hOther : reason ≠ .feeBelowRelayMinimum)
    (hGood : condition = false → good ()) :
    ExceptSpares tooLowFee good
      (Mempool.refuseIf condition reason) := by
  cases condition with
  | true =>
      intro hSame
      exact hOther (congrArg Rejection.reason hSame)
  | false => exact hGood rfl

theorem underRule_spares
    {α : Type}
    {fits : α → Prop}
    {verdict : Except ValidationError α}
    (hFits : ∀ a, verdict = .ok a → fits a) :
    ExceptSpares tooLowFee fits
      (Mempool.underRule verdict) := by
  cases verdict with
  | error rule =>
      intro hSame
      cases congrArg Rejection.reason hSame
  | ok a => exact hFits a rfl

end Refusals

/- Only a fee that is too low is refused as one. -/
theorem Mempool.judge_spares
    {c : Crypto}
    {tx : Transaction}
    {spent : List Coin}
    (hEnough :
      ∀ fee, transactionFee tx spent = .ok fee →
        tx.weight ≤ maxMempoolWeight →
          ¬fee < Int64.ofNat tx.weight * minRelayFeerate)
    (pool : Mempool)
    (spendHeight : UInt32)
    (params : ChainParams) :
    ExceptSpares tooLowFee (fun _ => True)
      (pool.judge c tx spent spendHeight params) := by
  have hAny : ∀ {condition : Bool} {reason : RejectReason},
      reason ≠ .feeBelowRelayMinimum →
        ExceptSpares tooLowFee (fun _ => True)
          (refuseIf condition reason) :=
    fun hOther => refuseIf_spares hOther fun _ => trivial
  have hShape :
      ExceptSpares tooLowFee (fun _ => True)
        (underRule (checkTransaction tx params)) :=
    underRule_spares fun _ _ => trivial
  have hLight :
      ExceptSpares tooLowFee
        (fun _ => tx.weight ≤ maxMempoolWeight)
        (refuseIf (decide (tx.weight > maxMempoolWeight))
          .poolFull) :=
    refuseIf_spares (by decide) fun hNot =>
      Nat.le_of_not_gt (of_decide_eq_false hNot)
  unfold judge
  refine (hAny (by decide)).bind fun _ _ => ?_
  refine (hAny (by decide)).bind fun _ _ => ?_
  refine hShape.bind fun _ _ => ?_
  refine (underRule_spares
    fun fee hFee => checkTransactionInputs_fee hFee).bind
      fun fee hFee => ?_
  refine (hAny (by decide)).bind fun _ _ => ?_
  refine hLight.bind fun _ hLight => ?_
  rw [decide_eq_false (hEnough fee hFee hLight)]
  have hAfter :
      ExceptSpares tooLowFee (fun _ => True)
        (checkReplacement pool tx fee) :=
    (hAny (by decide)).bind fun _ _ => hAny (by decide)
  have hRest :
      ExceptSpares tooLowFee (fun _ => True) (do
        refuseIf
          (decide ((pool.ancestorsFor tx).length >
            maxMempoolAncestors))
          .tooManyAncestors
        refuseIf
          ((pool.ancestorsFor tx).any fun id =>
            decide ((pool.survivingDescendants tx
                id).length + 1 >
              maxMempoolDescendants))
          .tooManyDescendants
        return ({ fee := fee
                  doomed := pool.doomedBy tx
                  parents := pool.parentsFor tx } :
          Admission)) :=
    (hAny (by decide)).bind fun _ _ =>
      (hAny (by decide)).bind fun _ _ => trivial
  have hPaid :
      ExceptSpares tooLowFee (fun _ => True)
        (refuseIf false .feeBelowRelayMinimum) :=
    trivial
  refine hPaid.bind fun _ _ => ?_
  refine (hAny (by decide)).bind fun _ _ => ?_
  dsimp only
  split
  · refine hAfter.bind fun _ _ => ?_
    split
    · intro hSame
      cases congrArg Rejection.reason hSame
    · exact hRest
  · split
    · intro hSame
      cases congrArg Rejection.reason hSame
    · exact hRest

theorem Mempool.acceptSpending_spares
    {c : Crypto}
    {tx : Transaction}
    {spent : List Coin}
    (hEnough :
      ∀ fee, transactionFee tx spent = .ok fee →
        tx.weight ≤ maxMempoolWeight →
          ¬fee < Int64.ofNat tx.weight * minRelayFeerate)
    (pool : Mempool)
    (spendHeight : UInt32)
    (now : Int64)
    (params : ChainParams) :
    (pool.acceptSpending c tx spent spendHeight now
        params).1 ≠
      .error tooLowFee := by
  have hJudged := @judge_spares c tx spent hEnough pool
    spendHeight params
  unfold acceptSpending
  rcases hVerdict :
      pool.judge c tx spent spendHeight params with
    rejection | admission
  · rw [hVerdict] at hJudged
    intro hSame
    exact hJudged (Except.error.inj hSame)
  · dsimp only
    unfold settle
    dsimp only
    split
    · intro hSame
      cases congrArg Rejection.reason
        (Except.error.inj hSame)
    · exact fun hSame => nomatch hSame

------------------------------------------------------------
-- Payments To Any Recipients
------------------------------------------------------------

namespace Wallet

/- What weighs more with every output, and the two counts. -/
def outputsWeight
    (inputs outputs : Nat) : Nat :=
  168 * outputs + 4 * compactSizeLen outputs +
    5 * compactSizeLen inputs

/-
  What the estimate has for them: its one output, and all by
  which the signatures it thinks of are larger.
-/
def outputsAllowance
    (inputs : Nat) : Nat :=
  176 + 2298 * inputs

theorem estimateTxWeight_allowance
    (inputs : Nat) :
    estimateTxWeight inputs 1 2420 =
      32 + 266 * inputs + outputsAllowance inputs := by
  rw [estimateTxWeight_one, outputsAllowance]
  omega

def paidIn
    (coins : List Coin) : Int :=
  (coins.map fun coin => coin.output.amount.toInt).sum

/- A lock of the one version that can be spent by a key. -/
structure IsCommitment
    (lock : Lock) : Prop where
  version : lock.version = lockVersionConditionCommitment
  program : lock.program.length = 32

namespace TxBuilder

def asked
    (builder : TxBuilder) : Int :=
  (builder.recipients.map
    fun recipient => recipient.2.toInt).sum

/- Recipients and coins that a payment can be built from. -/
structure Payable
    (sort : ValueSort)
    (builder : TxBuilder) : Prop where
  scheme : builder.schemeName = "schnorr-secp256k1"
  rate : 0 < builder.feeRate.toInt
  recipients :
    ∀ recipient ∈ builder.recipients,
      IsCommitment recipient.1 ∧ 0 < recipient.2.toInt
  locks :
    ∀ entry ∈ builder.utxos,
      IsCommitment entry.coin.output.lock
  real :
    ∀ entry ∈ builder.utxos, entry.outpoint.isNull = false
  values :
    ∀ entry ∈ builder.utxos, 0 ≤ entry.amount.toInt
  asked_lt : builder.asked < 2 ^ 63
  fits :
    WithoutOverflow sort builder.utxos builder.target
      builder.feeRate

/- What so many of the largest coins leave over their cost. -/
def rest
    (sort : ValueSort)
    (builder : TxBuilder)
    (count : Nat) : Int :=
  totalValue ((sort.order builder.utxos).take count) -
    cost builder.target builder.feeRate count

/- A rest that is paid out again, and not left as a fee. -/
def Returned
    (builder : TxBuilder)
    (rest : Int) : Prop :=
  dustThreshold.toInt ≤ rest ∧
    builder.feeRate.toInt *
        (inputWeight 72 + outputWeight : Nat) ≤
      rest

instance
    (builder : TxBuilder)
    (rest : Int) :
    Decidable (builder.Returned rest) :=
  inferInstanceAs (Decidable (_ ∧ _))

/-
  The outputs weigh no more than the estimate has for them,
  or what is left as a fee makes up for it.
-/
structure EstimateHolds
    (sort : ValueSort)
    (builder : TxBuilder)
    (count : Nat) : Prop where
  returned :
    builder.Returned (builder.rest sort count) →
      outputsWeight count (builder.recipients.length + 1) ≤
        outputsAllowance count
  kept :
    ¬builder.Returned (builder.rest sort count) →
      builder.feeRate.toInt *
          (outputsWeight count builder.recipients.length :
            Nat) ≤
        builder.feeRate.toInt * (outputsAllowance count : Nat) +
          builder.rest sort count

/- Up to thirteen recipients an input, the estimate is enough. -/
theorem estimateHolds_of_few
    {sort : ValueSort}
    {builder : TxBuilder}
    {count : Nat}
    (hRate : 0 ≤ builder.feeRate.toInt)
    (hCount :
      LeastCovers builder.target builder.feeRate
        (sort.order builder.utxos) count)
    (hFew : builder.recipients.length ≤ 13 * count) :
    builder.EstimateHolds sort count := by
  have hPositive := hCount.positive
  have hCovers := hCount.covers
  have hInputs := compactSizeLen_le count
  have hOne := compactSizeLen_le
    (builder.recipients.length + 1)
  have hAll := compactSizeLen_le builder.recipients.length
  unfold Covers at hCovers
  constructor
  case returned =>
    intro _
    unfold outputsWeight outputsAllowance
    omega
  case kept =>
    intro _
    have hLess :
        outputsWeight count builder.recipients.length ≤
          outputsAllowance count := by
      unfold outputsWeight outputsAllowance
      omega
    have hScaled :
        builder.feeRate.toInt *
            (outputsWeight count builder.recipients.length :
              Nat) ≤
          builder.feeRate.toInt *
            (outputsAllowance count : Nat) :=
      Int.mul_le_mul_of_nonneg_left (by omega) hRate
    unfold rest
    omega

section Built

variable {c : Crypto} {signer : Signer}
variable {sort : ValueSort} {builder : TxBuilder}

theorem Payable.toInt_target
    (hPayable : builder.Payable sort) :
    builder.target.toInt = builder.asked := by
  have hSame :
      ((builder.recipients.map Prod.snd).map
          Int64.toInt).sum =
        builder.asked := by
    rw [List.map_map]
    rfl
  have hSum := @toInt_foldl_add
    (builder.recipients.map Prod.snd)
    (by
      intro amount hAmount
      rcases List.mem_map.mp hAmount with
        ⟨recipient, hRecipient, rfl⟩
      exact Int.le_of_lt
        (hPayable.recipients recipient hRecipient).2)
    (by
      rw [hSame]
      exact hPayable.asked_lt)
  rw [List.foldl_map, hSame] at hSum
  exact hSum

theorem Payable.target_pos
    (hPayable : builder.Payable sort)
    (hSome : builder.recipients ≠ []) :
    0 < builder.target.toInt := by
  rw [hPayable.toInt_target]
  rcases hRecipients : builder.recipients with
    _ | ⟨first, others⟩
  · exact absurd hRecipients hSome
  have hAll := hPayable.recipients
  rw [hRecipients, List.forall_mem_cons] at hAll
  have hRest :
      0 ≤ (others.map
        fun recipient => recipient.2.toInt).sum := by
    refine List.sum_nonneg ?_
    intro amount hAmount
    rcases List.mem_map.mp hAmount with
      ⟨recipient, hRecipient, rfl⟩
    exact Int.le_of_lt (hAll.2 recipient hRecipient).2
  have hFirst := hAll.1.2
  rw [asked, hRecipients, List.map_cons, List.sum_cons]
  omega

/- Change is paid out exactly if the rest is returned. -/
theorem Payable.changeOutputs_eq
    (hPayable : builder.Payable sort)
    {rest : Int}
    {change : Int64}
    (hChange :
      change.toInt =
        if rest < 384 * builder.feeRate.toInt then
          0
        else
          rest) :
    (builder.Returned rest ∧
        ∃ own,
          builder.changeOutputs change =
              [{ amount := change, lock := own }] ∧
            change.toInt = rest ∧
            (builder.utxos ≠ [] → IsCommitment own)) ∨
      ¬builder.Returned rest ∧
        builder.changeOutputs change = [] := by
  have hDust : dustThreshold.toInt = 1000 := rfl
  have hReturned :
      builder.Returned rest ↔
        1000 ≤ rest ∧
          384 * builder.feeRate.toInt ≤ rest := by
    rw [Returned, hDust, Int.mul_comm]
    rfl
  have hPaid :
      change > 0 ∧ change ≥ dustThreshold ↔
        builder.Returned rest := by
    rw [hReturned, gt_iff_lt, ge_iff_le,
      Int64.lt_iff_toInt_lt, Int64.le_iff_toInt_le, hDust,
      hChange]
    change (0 : Int) < _ ∧ _ ↔ _
    split <;> omega
  by_cases hKept : builder.Returned rest
  · refine Or.inl ⟨hKept, ?_⟩
    have hWhole : change.toInt = rest := by
      rw [hChange, if_neg]
      have hEnough := (hReturned.mp hKept).2
      omega
    rcases changeOutputs_cases builder change with
      hNone | ⟨-, own, hOne, hOwn⟩
    · rw [changeOutputs, if_pos (hPaid.mpr hKept)] at hNone
      cases hNone
    · refine ⟨own, hOne, hWhole, ?_⟩
      intro hSome
      rcases hOwn hSome with ⟨entry, hEntry, rfl⟩
      exact hPayable.locks entry hEntry
  · refine Or.inr ⟨hKept, ?_⟩
    rw [changeOutputs, if_neg (mt hPaid.mp hKept)]

/- How many outputs there are, and what they are worth. -/
def outputCount
    (builder : TxBuilder)
    (rest : Int) : Nat :=
  builder.recipients.length +
    if builder.Returned rest then 1 else 0

/- What is selected are some of the largest coins. -/
theorem Payable.selected
    (hPayable : builder.Payable sort)
    (hSome : builder.recipients ≠ [])
    (hSuccess : (builder.selection sort).success = true) :
    ∃ count,
      LeastCovers builder.target builder.feeRate
          (sort.order builder.utxos) count ∧
        (builder.selection sort).inputs =
          (sort.order builder.utxos).take count ∧
        (builder.selection sort).inputs.length = count ∧
        (builder.selection sort).change.toInt =
          if builder.rest sort count <
              384 * builder.feeRate.toInt then
            0
          else
            builder.rest sort count := by
  have hTarget := hPayable.target_pos hSome
  have hRate := Int.le_of_lt hPayable.rate
  have hSummable : Summable builder.utxos :=
    ⟨hPayable.values, hPayable.fits.total⟩
  have hCost := hPayable.fits.cost_lt hTarget hRate hSummable
    hSuccess
  rcases exists_gathers sort hRate hSummable hSuccess hCost
    with ⟨-, found, hFound, hSettled⟩
  have hSelection :
      builder.selection sort =
        settleChange builder.target builder.feeRate found :=
    hSettled
  have hRest :
      builder.rest sort found.inputs.length =
        totalValue found.inputs -
          cost builder.target builder.feeRate
            found.inputs.length := by
    rw [rest, ← hFound.inputs]
  rw [hSelection]
  refine ⟨found.inputs.length, hFound.count, hFound.inputs,
    rfl, ?_⟩
  rw [hRest]
  exact hFound.change_eq hTarget hRate

/- The transaction that was built, with its witnesses. -/
structure SignedFrom
    (sort : ValueSort)
    (builder : TxBuilder)
    (utx : UnsignedTx)
    (tx : Transaction) : Prop where
  coins :
    utx.spentCoins =
      (builder.selection sort).inputs.map UtxoEntry.coin
  inputs :
    tx.inputs = (builder.selection sort).inputs.map inputFor
  outputs :
    tx.outputs =
      builder.recipients.map recipientOutput ++
        builder.changeOutputs (builder.selection sort).change
  counted : tx.witnesses.length = tx.inputs.length
  signed : ∀ witness ∈ tx.witnesses, SinglySigned witness

theorem Payable.signedFrom
    (hPayable : builder.Payable sort)
    (hSigns : SignsWell signer c)
    {utx : UnsignedTx}
    (hBuild : builder.build c sort = some utx)
    {signed : SignedTx}
    (hSign : builder.sign c signer utx = some signed) :
    builder.recipients ≠ [] ∧ builder.utxos ≠ [] ∧
      (builder.selection sort).success = true ∧
      builder.SignedFrom sort utx signed.tx := by
  rcases build_eq_some.mp hBuild with
    ⟨hRecipients, hUtxos, hSuccess, rfl⟩
  rcases sign_eq_some.mp hSign with
    ⟨witnesses, hWitnesses, rfl⟩
  refine ⟨hRecipients, hUtxos, hSuccess, ?_⟩
  rcases hPayable.selected hRecipients hSuccess with
    ⟨count, -, hInputs, -, -⟩
  have hScheme :
      schemeIdFromName builder.schemeName =
        schemeSchnorrSecp256k1 := by
    rw [hPayable.scheme]
    rfl
  have hLocks :
      ∀ entry ∈ (builder.selection sort).inputs,
        entry.coin.output.lock.version =
          lockVersionConditionCommitment := by
    intro entry hEntry
    rw [hInputs] at hEntry
    exact (hPayable.locks entry
      ((sort.perm builder.utxos).mem_iff.mp
        (List.mem_of_mem_take hEntry))).version
  unfold assemble at hWitnesses
  dsimp only at hWitnesses
  rw [hScheme] at hWitnesses
  rcases @signInputs_spec c signer hSigns
    { regtestParams with chainId := builder.chainId }
    _ _ _ _ hLocks _ _ hWitnesses with
    ⟨hCount, hEach, -⟩
  constructor
  case coins => rfl
  case inputs => rfl
  case outputs => rfl
  case counted =>
    change witnesses.length =
      ((builder.selection sort).inputs.map inputFor).length
    rw [hCount, List.length_map]
  case signed => exact hEach

/- What a signed payment weighs, and what is left as its fee. -/
structure SignedAs
    (sort : ValueSort)
    (builder : TxBuilder)
    (count : Nat)
    (utx : UnsignedTx)
    (tx : Transaction) : Prop where
  least :
    LeastCovers builder.target builder.feeRate
      (sort.order builder.utxos) count
  weight :
    tx.weight =
      32 + 266 * count +
        outputsWeight count
          (builder.outputCount (builder.rest sort count))
  fee :
    paidIn utx.spentCoins - paidOut tx =
      builder.feeRate.toInt *
          (estimateTxWeight count 1 2420 : Nat) +
        if builder.Returned (builder.rest sort count) then
          0
        else
          builder.rest sort count

theorem paidOut_recipients
    {tx : Transaction}
    {change : List TxOutput}
    (hOutputs :
      tx.outputs =
        builder.recipients.map recipientOutput ++ change) :
    paidOut tx =
      builder.asked +
        (change.map fun output => output.amount.toInt).sum := by
  rw [paidOut, hOutputs, List.map_append, List.sum_append,
    List.map_map]
  rfl

theorem Payable.signedAs
    (hPayable : builder.Payable sort)
    (hSome : builder.recipients ≠ [])
    (hCoins : builder.utxos ≠ [])
    (hSuccess : (builder.selection sort).success = true)
    {utx : UnsignedTx}
    {tx : Transaction}
    (hFrom : builder.SignedFrom sort utx tx) :
    ∃ count, builder.SignedAs sort count utx tx := by
  rcases hPayable.selected hSome hSuccess with
    ⟨count, hCount, hTaken, hLength, hChange⟩
  have hWithin : ∀ entry ∈ (builder.selection sort).inputs,
      entry ∈ builder.utxos := by
    intro entry hEntry
    rw [hTaken] at hEntry
    exact (sort.perm builder.utxos).mem_iff.mp
      (List.mem_of_mem_take hEntry)
  have hSpending := isCoinbase_inputFor hFrom.inputs
    fun entry hEntry =>
      hPayable.real entry (hWithin entry hEntry)
  have hPrograms : ∀ output ∈
      builder.recipients.map recipientOutput,
      output.lock.program.length = 32 := by
    intro output hOutput
    rcases List.mem_map.mp hOutput with
      ⟨recipient, hRecipient, rfl⟩
    exact (hPayable.recipients recipient hRecipient).1.program
  have hInputs : tx.inputs.length = count := by
    rw [hFrom.inputs, List.length_map, hLength]
  have hPaidIn :
      paidIn utx.spentCoins =
        totalValue ((sort.order builder.utxos).take count) := by
    rw [hFrom.coins, paidIn, List.map_map, hTaken]
    rfl
  have hRest :
      builder.rest sort count =
        paidIn utx.spentCoins - builder.asked -
          builder.feeRate.toInt *
            (estimateTxWeight count 1 2420 : Nat) := by
    rw [hPaidIn, rest, cost, hPayable.toInt_target]
    omega
  refine ⟨count, ?_⟩
  rcases hPayable.changeOutputs_eq hChange with
    ⟨hReturned, own, hOne, hWhole, hOwn⟩ | ⟨hKept, hNone⟩
  · have hOutputs := hFrom.outputs
    rw [hOne] at hOutputs
    have hAll : ∀ output ∈ tx.outputs,
        output.lock.program.length = 32 := by
      intro output hOutput
      rw [hOutputs] at hOutput
      rcases List.mem_append.mp hOutput with
        hRecipient | hOwnOutput
      · exact hPrograms output hRecipient
      · rw [List.mem_singleton.mp hOwnOutput]
        exact (hOwn hCoins).program
    have hWeight := weight_signed hSpending
      hFrom.counted hFrom.signed hAll
    have hPaid := paidOut_recipients hOutputs
    have hMany :
        tx.outputs.length = builder.recipients.length + 1 := by
      rw [hOutputs, List.length_append, List.length_map]
      rfl
    constructor
    case least => exact hCount
    case weight =>
      rw [hWeight, hInputs, hMany, outputCount,
        if_pos hReturned, outputsWeight]
      omega
    case fee =>
      rw [if_pos hReturned, hPaid, List.map_singleton,
        List.sum_singleton, hWhole, hRest]
      omega
  · have hOutputs := hFrom.outputs
    rw [hNone, List.append_nil] at hOutputs
    have hAll : ∀ output ∈ tx.outputs,
        output.lock.program.length = 32 := by
      rw [hOutputs]
      exact hPrograms
    have hWeight := weight_signed hSpending
      hFrom.counted hFrom.signed hAll
    have hPaid := @paidOut_recipients builder tx []
      (by rw [hOutputs, List.append_nil])
    have hMany :
        tx.outputs.length = builder.recipients.length := by
      rw [hOutputs, List.length_map]
    constructor
    case least => exact hCount
    case weight =>
      rw [hWeight, hInputs, hMany, outputCount,
        if_neg hKept, Nat.add_zero, outputsWeight]
      omega
    case fee =>
      rw [if_neg hKept, hPaid, List.map_nil, List.sum_nil,
        hRest]
      omega

------------------------------------------------------------
-- Where The Fee Is Enough
------------------------------------------------------------

/-
  The fee is at least the rate for all that was signed, and
  no pool that relays at this rate refuses it for its fee.
-/
structure PaysItsRate
    (c : Crypto)
    (builder : TxBuilder)
    (utx : UnsignedTx)
    (tx : Transaction) : Prop where
  rate :
    builder.feeRate.toInt * (tx.weight : Nat) ≤
      paidIn utx.spentCoins - paidOut tx
  relayed :
    builder.feeRate = minRelayFeerate →
      ∀ (pool : Mempool) (spendHeight : UInt32) (now : Int64)
        (params : ChainParams),
        (pool.acceptSpending c tx utx.spentCoins spendHeight
            now params).1 ≠
          .error tooLowFee

theorem SignedAs.rate_iff
    {count : Nat}
    {utx : UnsignedTx}
    {tx : Transaction}
    (hRate : 0 < builder.feeRate.toInt)
    (hSigned : builder.SignedAs sort count utx tx) :
    builder.feeRate.toInt * (tx.weight : Nat) ≤
        paidIn utx.spentCoins - paidOut tx ↔
      builder.EstimateHolds sort count := by
  have hScale : ∀ outputs : Nat,
      builder.feeRate.toInt *
          ((32 + 266 * count + outputs : Nat) : Int) =
        builder.feeRate.toInt *
            ((32 + 266 * count : Nat) : Int) +
          builder.feeRate.toInt * (outputs : Int) := by
    intro outputs
    rw [Int.natCast_add, Int.mul_add]
  rw [hSigned.weight, hSigned.fee,
    estimateTxWeight_allowance, hScale, hScale, outputCount]
  by_cases hReturned :
      builder.Returned (builder.rest sort count)
  · rw [if_pos hReturned, if_pos hReturned]
    constructor
    · intro hPays
      refine ⟨fun _ => ?_, fun hKept => absurd hReturned hKept⟩
      have hLess :
          builder.feeRate.toInt *
              (outputsWeight count
                (builder.recipients.length + 1) : Nat) ≤
            builder.feeRate.toInt *
              (outputsAllowance count : Nat) := by
        omega
      exact Int.ofNat_le.mp
        (Int.le_of_mul_le_mul_left hLess hRate)
    · intro hHolds
      have hLess :
          builder.feeRate.toInt *
              (outputsWeight count
                (builder.recipients.length + 1) : Nat) ≤
            builder.feeRate.toInt *
              (outputsAllowance count : Nat) :=
        Int.mul_le_mul_of_nonneg_left
          (Int.ofNat_le.mpr (hHolds.returned hReturned))
          (Int.le_of_lt hRate)
      omega
  · rw [if_neg hReturned, if_neg hReturned, Nat.add_zero]
    constructor
    · intro hPays
      refine ⟨fun hNo => absurd hNo hReturned, fun _ => ?_⟩
      omega
    · intro hHolds
      have hLess := hHolds.kept hReturned
      omega

/- The pool counts the fee that the payment leaves. -/
theorem relayed_of_rate
    {utx : UnsignedTx}
    {tx : Transaction}
    (hEnough :
      builder.feeRate.toInt * (tx.weight : Nat) ≤
        paidIn utx.spentCoins - paidOut tx)
    (hRelay : builder.feeRate = minRelayFeerate)
    (pool : Mempool)
    (spendHeight : UInt32)
    (now : Int64)
    (params : ChainParams) :
    (pool.acceptSpending c tx utx.spentCoins spendHeight now
        params).1 ≠
      .error tooLowFee := by
  refine Mempool.acceptSpending_spares ?_ pool spendHeight now
    params
  intro fee hFee hLight hLess
  have hValue := (Exact.toInt_transactionFee hFee).1
  have hOne : minRelayFeerate.toInt = 1 := rfl
  have hExact : (Int64.ofNat tx.weight).toInt = tx.weight := by
    apply Int64.toInt_ofNat_of_lt
    unfold maxMempoolWeight at hLight
    omega
  rw [hRelay, hOne, Int.one_mul, paidIn, paidOut, ← hValue]
    at hEnough
  rw [minRelayFeerate, Int64.mul_one, Int64.lt_iff_toInt_lt,
    hExact] at hLess
  omega

/-
  A payment pays its rate exactly if the estimate for one
  output holds for all outputs that it has.
-/
theorem paysItsRate_iff
    (hPayable : builder.Payable sort)
    (hSigns : SignsWell signer c)
    {utx : UnsignedTx}
    (hBuild : builder.build c sort = some utx)
    {signed : SignedTx}
    (hSign : builder.sign c signer utx = some signed) :
    ∃ count,
      LeastCovers builder.target builder.feeRate
          (sort.order builder.utxos) count ∧
        (builder.PaysItsRate c utx signed.tx ↔
          builder.EstimateHolds sort count) := by
  rcases hPayable.signedFrom hSigns hBuild hSign with
    ⟨hSome, hCoins, hSuccess, hFrom⟩
  rcases hPayable.signedAs hSome hCoins hSuccess hFrom
    with ⟨count, hSigned⟩
  have hRate := hSigned.rate_iff hPayable.rate
  refine ⟨count, hSigned.least, ?_, ?_⟩
  · exact fun hPays => hRate.mp hPays.rate
  · intro hHolds
    have hEnough := hRate.mpr hHolds
    exact ⟨hEnough, relayed_of_rate hEnough⟩

end Built

end TxBuilder

end Wallet

namespace Sample

open Wallet

def plainLock : Lock :=
  { version := lockVersionConditionCommitment
    program := List.replicate 32 0 }

def savings : UtxoEntry :=
  { outpoint := { txid := .zero, index := 0 }
    coin :=
      { output := { amount := 1000000, lock := plainLock }
        height := 1
        isCoinbase := false }
    confirmed := true
    accountId := 0
    derivationIndex := 0 }

/- So many recipients, and one coin to pay them all from. -/
def builderTo
    (count : Nat) : TxBuilder :=
  { seed := .zero
    schemeName := "schnorr-secp256k1"
    account := 0
    recipients := List.replicate count (plainLock, 1000)
    feeRate := 1
    chainId := .zero
    utxos := [savings] }

theorem plainLock_commitment :
    IsCommitment plainLock :=
  ⟨rfl, rfl⟩

theorem builderTo_payable
    {count : Nat}
    (hTarget : (builderTo count).target.toInt < 1000000)
    (hAsked : (builderTo count).asked < 1000000) :
    (builderTo count).Payable valueSort where
  scheme := rfl
  rate := by
    change 0 < (1 : Int64).toInt
    decide
  recipients := by
    intro recipient hRecipient
    rw [List.eq_of_mem_replicate hRecipient]
    exact ⟨plainLock_commitment, by decide⟩
  locks := by
    intro entry hEntry
    rw [List.mem_singleton.mp hEntry]
    exact plainLock_commitment
  real := by
    intro entry hEntry
    rw [List.mem_singleton.mp hEntry]
    rfl
  values := by
    intro entry hEntry
    rw [List.mem_singleton.mp hEntry]
    decide
  asked_lt := by omega
  fits := by
    constructor
    case total =>
      change totalValue [savings] < 2 ^ 63
      decide
    intro _ fewer hFewer _
    have hRate : (builderTo count).feeRate.toInt = 1 := rfl
    have hLength : (builderTo count).utxos.length = 1 := rfl
    rw [estimateTxWeight_one, hRate]
    omega

theorem builderTo_signs
    {count : Nat}
    (hSome : 0 < count)
    (hSuccess :
      ((builderTo count).selection valueSort).success =
        true) :
    ∃ utx signed,
      (builderTo count).build cheapCrypto valueSort =
          some utx ∧
        (builderTo count).sign cheapCrypto openSigner utx =
          some signed := by
  have hRecipients : (builderTo count).recipients ≠ [] := by
    intro hNone
    rw [builderTo, List.replicate_eq_nil_iff] at hNone
    omega
  have hBuild :
      (builderTo count).build cheapCrypto valueSort =
        some ((builderTo count).assemble cheapCrypto
          ((builderTo count).selection valueSort)) :=
    TxBuilder.build_eq_some.mpr
      ⟨hRecipients, List.cons_ne_nil savings [], hSuccess,
        rfl⟩
  have hKeys : ∀ entry,
      ((builderTo count).privateKeyFor cheapCrypto
        entry).length = 32 :=
    fun _ => length_deriveSecp256k1Key ..
  rcases exists_signInputs hKeys
    ((builderTo count).selection valueSort).inputs
    .zero
    ((builderTo count).assemble cheapCrypto
      ((builderTo count).selection valueSort)).tx
    (computeSigHashMidstates cheapCrypto
      ((builderTo count).assemble cheapCrypto
        ((builderTo count).selection valueSort)).tx)
    0 with
    ⟨witnesses, hWitnesses⟩
  exact ⟨_, _, hBuild, TxBuilder.sign_eq_some.mpr
    ⟨witnesses, hWitnesses, rfl⟩⟩

/- The fee is that of one output, and there are twenty-one. -/
theorem twentyRecipients_underpaid :
    (builderTo 20).Payable valueSort ∧
      ∃ utx signed,
        (builderTo 20).build cheapCrypto valueSort =
            some utx ∧
          (builderTo 20).sign cheapCrypto openSigner utx =
            some signed ∧
          signed.tx.weight = 3835 ∧
          paidIn utx.spentCoins - paidOut signed.tx = 2772 ∧
          ¬(builderTo 20).PaysItsRate cheapCrypto utx
            signed.tx := by
  have hPayable : (builderTo 20).Payable valueSort :=
    builderTo_payable (by decide) (by decide)
  rcases @builderTo_signs 20 (by decide) (by decide) with
    ⟨utx, signed, hBuild, hSign⟩
  refine ⟨hPayable, utx, signed, hBuild, hSign, ?_⟩
  rcases hPayable.signedFrom openSigner_signsWell hBuild
    hSign with ⟨hSome, hCoins, hSuccess, hFrom⟩
  rcases hPayable.signedAs hSome hCoins hSuccess hFrom
    with ⟨count, hSigned⟩
  have hWithin := hSigned.least.within
  have hPositive := hSigned.least.positive
  have hLength :
      (valueSort.order (builderTo 20).utxos).length = 1 :=
    (valueSort.perm _).length_eq
  have hOne : count = 1 := by omega
  rw [hOne] at hSigned
  have hRest : (builderTo 20).rest valueSort 1 = 977228 := by
    decide
  have hWeight := hSigned.weight
  have hFee := hSigned.fee
  rw [hRest] at hWeight hFee
  have hHeavy : signed.tx.weight = 3835 := hWeight
  have hPaid :
      paidIn utx.spentCoins - paidOut signed.tx = 2772 :=
    hFee
  refine ⟨hHeavy, hPaid, ?_⟩
  intro hPays
  have hRate := hPays.rate
  rw [hHeavy, hPaid] at hRate
  revert hRate
  decide

theorem oneRecipient_paysItsRate_iff :
    ∃ utx signed,
      (builderTo 1).build cheapCrypto valueSort = some utx ∧
        (builderTo 1).sign cheapCrypto openSigner utx =
          some signed ∧
        ∃ count,
          LeastCovers (builderTo 1).target
              (builderTo 1).feeRate
              (valueSort.order (builderTo 1).utxos) count ∧
            ((builderTo 1).PaysItsRate cheapCrypto utx
                signed.tx ↔
              (builderTo 1).EstimateHolds valueSort
                count) := by
  rcases @builderTo_signs 1 (by decide) (by decide) with
    ⟨utx, signed, hBuild, hSign⟩
  exact ⟨utx, signed, hBuild, hSign,
    TxBuilder.paysItsRate_iff
      (builderTo_payable (by decide) (by decide))
      openSigner_signsWell hBuild hSign⟩

end Sample

end Amarian
