import Amarian.Consensus.Params
import Amarian.Consensus.Target
import Amarian.Primitives.Sighash
import Mathlib.Data.List.Sort

/-
  The consensus rules, in the order the source applies them.

  A verdict is an `Except ValidationError`; the error is the
  rule that rejected.  Loops are recursions over the list the
  source walks, and they stop at the first violation.

  Key definitions include:
    * `ValidationError`
    * `checkTransaction`
    * `transactionFee`
    * `checkSpendAuthorisation`
    * `checkTransactionInputs`
    * `checkBlockHeader`
    * `contextualCheckBlockHeader`
    * `checkBlock`
    * `checkCoinbaseAmount`
-/

------------------------------------------------------------
-- Verdicts
------------------------------------------------------------

namespace Amarian

/- Every rule that can be broken. -/
inductive ValidationError where
  | headerTargetMalformed
  | headerTargetBelowFloor
  | headerInsufficientWork
  | headerWrongHeight
  | headerWrongPrevBlock
  | headerUnexpectedTarget
  | headerTimestampTooOld
  | headerTimestampTooFarAhead
  | txNoInputs
  | txNoOutputs
  | txDuplicateInput
  | txNullOutpoint
  | txAmountOutOfRange
  | txOutputSumOutOfRange
  | txWeightTooLarge
  | txTooManyInputs
  | txTooManyOutputs
  | txWitnessCountMismatch
  | txCoinbaseHasWitnesses
  | txCoinbaseDataTooLarge
  | txCoinbaseDataOnNonCoinbase
  | conditionVersionReserved
  | conditionNoKeys
  | conditionTooManyKeys
  | conditionKeysNotStrictlyOrdered
  | conditionKeySchemeReserved
  | conditionThresholdZero
  | conditionThresholdAboveKeyCount
  | witnessSignatureCountMismatch
  | witnessSignatureSchemeReserved
  | conditionKeyWrongSize
  | witnessSignatureWrongSize
  | txCoinbaseAuthorisesNothing
  | txSpentOutputCountMismatch
  | txSpendsUnspendableOutput
  | txConditionDoesNotMatchLock
  | txSignatureDoesNotVerify
  | txInputSumOutOfRange
  | txOutputsExceedInputs
  | txInputMissingOrSpent
  | txCoinbaseNotMature
  | txCreatesExistingOutpoint
  | blockNoTransactions
  | blockTooManyTransactions
  | blockFirstTxNotCoinbase
  | blockMultipleCoinbases
  | blockWeightTooLarge
  | blockMerkleRootMismatch
  | blockCoinbaseWrongHeight
  | blockDuplicateSpend
  | blockCoinbasePaysTooMuch
  | blockFeesOutOfRange
deriving DecidableEq, Repr

/- Passed, or the rule that was broken. -/
abbrev Verdict := Except ValidationError Unit

/- Reject with `error` when the condition holds. -/
def rejectIf
    (condition : Bool)
    (error : ValidationError) : Verdict :=
  if condition then .error error else .ok ()

@[simp] theorem rejectIf_eq_ok
    {condition : Bool}
    {error : ValidationError}
    {passed : Unit} :
    rejectIf condition error = .ok passed ↔
      condition = false := by
  cases condition <;> simp [rejectIf]

/- Check every element in order. -/
def checkAll
    {α : Type}
    (check : α → Verdict) : List α → Verdict
  | [] => .ok ()
  | item :: rest => do
      check item
      checkAll check rest

theorem checkAll_eq_ok
    {α : Type}
    {check : α → Verdict}
    {items : List α} :
    checkAll check items = .ok () ↔
      ∀ item ∈ items, check item = .ok () := by
  induction items with
  | nil => simp [checkAll]
  | cons item rest ih =>
      rw [checkAll, List.forall_mem_cons, ← ih]
      cases hItem : check item with
      | error error => simp [bind, Except.bind]
      | ok passed => simp [bind, Except.bind]

------------------------------------------------------------
-- Spend Conditions And Witnesses
------------------------------------------------------------

/- Unknown schemes may have any size. -/
def hasWrongPublicKeySize
    (key : PublicKey) : Bool :=
  match findScheme key.scheme with
  | none => false
  | some spec => key.bytes.length != spec.publicKeyBytes

/- Unknown schemes may have any size. -/
def hasWrongSignatureSize
    (signature : Signature) : Bool :=
  match findScheme signature.scheme with
  | none => false
  | some spec =>
      signature.bytes.length != spec.signatureBytes

/- The key loop; `previous` is the key before this one. -/
def checkKeys : Option PublicKey → List PublicKey → Verdict
  | _, [] => .ok ()
  | previous, key :: rest => do
      rejectIf (key.scheme == schemeReserved)
        .conditionKeySchemeReserved
      rejectIf (hasWrongPublicKeySize key)
        .conditionKeyWrongSize
      rejectIf (previous.any fun before => !before.less key)
        .conditionKeysNotStrictlyOrdered
      checkKeys (some key) rest

/- What a condition must be by itself. -/
def checkSpendCondition
    (condition : SpendCondition)
    (params : ChainParams) : Verdict := do
  rejectIf (condition.version == conditionVersionReserved)
    .conditionVersionReserved
  if condition.version ≠ conditionVersionThreshold then
    -- an unknown version stays spendable
    return ()
  rejectIf condition.keys.isEmpty .conditionNoKeys
  rejectIf
    (decide (condition.keys.length >
      params.blockLimits.tx.maxKeys))
    .conditionTooManyKeys
  rejectIf (condition.threshold == 0)
    .conditionThresholdZero
  rejectIf
    (decide (condition.threshold.toNat >
      condition.keys.length))
    .conditionThresholdAboveKeyCount
  checkKeys none condition.keys

/- The condition, then the signatures. -/
def checkWitness
    (witness : Witness)
    (params : ChainParams) : Verdict := do
  checkSpendCondition witness.condition params
  rejectIf
    (witness.condition.version ==
        conditionVersionThreshold &&
      witness.signatures.length !=
        witness.condition.threshold.toNat)
    .witnessSignatureCountMismatch
  rejectIf
    (witness.signatures.any fun signature =>
      signature.scheme == schemeReserved)
    .witnessSignatureSchemeReserved
  rejectIf
    (witness.condition.version ==
        conditionVersionThreshold &&
      witness.signatures.any hasWrongSignatureSize)
    .witnessSignatureWrongSize

------------------------------------------------------------
-- Transactions
------------------------------------------------------------

/- Two errors, unlike the other summing loops. -/
def checkOutputAmounts : Int64 → List TxOutput → Verdict
  | _, [] => .ok ()
  | total, output :: rest =>
      if !isValidAmount output.amount then
        .error .txAmountOutOfRange
      else
        match checkedAdd total output.amount with
        | none => .error .txOutputSumOutOfRange
        | some next =>
            if !isValidAmount next then
              .error .txOutputSumOutOfRange
            else
              checkOutputAmounts next rest

/- The part of `CheckTransaction` that depends on the form. -/
def checkTransactionForm
    (tx : Transaction)
    (params : ChainParams) : Verdict := do
  if tx.isCoinbase then
    rejectIf (!tx.witnesses.isEmpty)
      .txCoinbaseHasWitnesses
    rejectIf
      (decide (tx.coinbaseData.length >
        params.blockLimits.tx.maxCoinbaseDataSize))
      .txCoinbaseDataTooLarge
  else
    rejectIf (!tx.coinbaseData.isEmpty)
      .txCoinbaseDataOnNonCoinbase
    rejectIf (tx.witnesses.length != tx.inputs.length)
      .txWitnessCountMismatch
    rejectIf
      (tx.inputs.any fun input => input.outpoint.isNull)
      .txNullOutpoint

/- What can be checked without the coins. -/
def checkTransaction
    (tx : Transaction)
    (params : ChainParams) : Verdict := do
  rejectIf tx.inputs.isEmpty .txNoInputs
  rejectIf tx.outputs.isEmpty .txNoOutputs
  rejectIf
    (decide (tx.inputs.length >
      params.blockLimits.tx.maxInputs))
    .txTooManyInputs
  rejectIf
    (decide (tx.outputs.length >
      params.blockLimits.tx.maxOutputs))
    .txTooManyOutputs
  checkTransactionForm tx params
  checkOutputAmounts 0 tx.outputs
  if !tx.isCoinbase then
    rejectIf
      (!decide (tx.inputs.map TxInput.outpoint).Nodup)
      .txDuplicateInput
    checkAll (fun witness => checkWitness witness params)
      tx.witnesses
  rejectIf (decide (tx.weight > params.maxBlockWeight))
    .txWeightTooLarge

/- Inputs, outputs and the difference between them. -/
def transactionFee
    (tx : Transaction)
    (spentCoins : List Coin) :
    Except ValidationError Int64 := do
  rejectIf tx.isCoinbase .txCoinbaseAuthorisesNothing
  rejectIf (spentCoins.length != tx.inputs.length)
    .txSpentOutputCountMismatch
  match sumAmounts 0
      (spentCoins.map fun coin => coin.output.amount) with
  | none => .error .txInputSumOutOfRange
  | some spent =>
      match sumAmounts 0
          (tx.outputs.map TxOutput.amount) with
      | none => .error .txOutputSumOutOfRange
      | some paid =>
          if paid > spent then
            .error .txOutputsExceedInputs
          else
            .ok (spent - paid)

------------------------------------------------------------
-- Spend Authorisation
------------------------------------------------------------

/-
  Try one signature against the keys that are left, in order.
  A key that was looked at is consumed whatever the outcome.
-/
def satisfyWithKeys
    (c : Crypto)
    (message : Hash256)
    (signature : Signature) :
    List PublicKey →
      Except ValidationError (List PublicKey)
  | [] => .error .txSignatureDoesNotVerify
  | key :: keys =>
      if key.scheme ≠ signature.scheme then
        satisfyWithKeys c message signature keys
      else
        match c.verify signature.scheme key.bytes
            signature.bytes message with
        | .valid => .ok keys
        | .unknownScheme => .ok keys
        | .invalid =>
            satisfyWithKeys c message signature keys
        | .malformed =>
            satisfyWithKeys c message signature keys
        | .reserved =>
            .error .witnessSignatureSchemeReserved

/- Ordered forward match of signatures against keys. -/
def satisfiesThreshold
    (c : Crypto)
    (message : Hash256) :
    List PublicKey → List Signature → Verdict
  | _, [] => .ok ()
  | keys, signature :: rest => do
      let left ← satisfyWithKeys c message signature keys
      satisfiesThreshold c message left rest

/- The lock holds the hash of this condition. -/
def matchesConditionCommitment
    (c : Crypto)
    (lock : Lock)
    (condition : SpendCondition) : Bool :=
  lock.program == (spendConditionCommitment c condition).bytes

/- One input: the coin it spends and the witness it offers. -/
def authoriseInput
    (c : Crypto)
    (params : ChainParams)
    (tx : Transaction)
    (midstates : SigHashMidstates)
    (index : Nat)
    (spent : TxOutput)
    (witness : Witness) : Verdict :=
  if spent.lock.isUnspendable then
    .error .txSpendsUnspendableOutput
  else if spent.lock.version ≠
      lockVersionConditionCommitment then
    -- an unknown lock version has no rules to enforce
    .ok ()
  else if !matchesConditionCommitment c spent.lock
      witness.condition then
    .error .txConditionDoesNotMatchLock
  else if witness.condition.version ≠
      conditionVersionThreshold then
    .ok ()
  else
    satisfiesThreshold c
      (signatureHash c params.chainId tx midstates
        (UInt32.ofNat index) spent.amount
        witness.condition)
      witness.condition.keys witness.signatures

/- Each input with its coin and its witness. -/
def authoriseInputs
    (c : Crypto)
    (params : ChainParams)
    (tx : Transaction)
    (midstates : SigHashMidstates) :
    Nat → List Coin → List Witness → Verdict
  | index, coin :: coins, witness :: witnesses => do
      authoriseInput c params tx midstates index
        coin.output witness
      authoriseInputs c params tx midstates (index + 1)
        coins witnesses
  | _, _, _ => .ok ()

/- Every input is authorised by its witness. -/
def checkSpendAuthorisation
    (c : Crypto)
    (tx : Transaction)
    (spentCoins : List Coin)
    (params : ChainParams) : Verdict := do
  rejectIf tx.isCoinbase .txCoinbaseAuthorisesNothing
  rejectIf (spentCoins.length != tx.inputs.length)
    .txSpentOutputCountMismatch
  rejectIf (tx.witnesses.length != tx.inputs.length)
    .txWitnessCountMismatch
  authoriseInputs c params tx (computeSigHashMidstates c tx)
    0 spentCoins tx.witnesses

/- A coinbase coin too young to be spent at this height. -/
def isImmature
    (params : ChainParams)
    (spendHeight : UInt32)
    (coin : Coin) : Bool :=
  coin.isCoinbase &&
    decide ((spendHeight.toNat : Int) - coin.height.toNat <
      params.coinbaseMaturity.toNat)

/- What can be checked with the coins. -/
def checkTransactionInputs
    (c : Crypto)
    (tx : Transaction)
    (spentCoins : List Coin)
    (spendHeight : UInt32)
    (params : ChainParams) :
    Except ValidationError Int64 := do
  rejectIf tx.isCoinbase .txCoinbaseAuthorisesNothing
  rejectIf (spentCoins.length != tx.inputs.length)
    .txSpentOutputCountMismatch
  rejectIf (spentCoins.any (isImmature params spendHeight))
    .txCoinbaseNotMature
  let fee ← transactionFee tx spentCoins
  checkSpendAuthorisation c tx spentCoins params
  return fee

------------------------------------------------------------
-- Headers
------------------------------------------------------------

/- The target is in range and the hash meets it. -/
def checkBlockHeader
    (c : Crypto)
    (header : BlockHeader)
    (params : ChainParams) : Verdict :=
  match compactToTarget header.targetBits with
  | none => .error .headerTargetMalformed
  | some target =>
      match compactToTarget params.powLimitBits with
      | none => .error .headerTargetMalformed
      | some floor =>
          if bytesLess floor.bytes target.bytes then
            .error .headerTargetBelowFloor
          else if !hashMeetsTarget (header.hash c) target then
            .error .headerInsufficientWork
          else
            .ok ()

/- The middle element of the last timestamps, newest last. -/
def medianTimePast
    (timestamps : List Int64) : Int64 :=
  if timestamps.isEmpty then
    Int64.minValue
  else
    let window :=
      timestamps.drop (timestamps.length - medianTimeSpan)
    (window.insertionSort (· ≤ ·)).getD (window.length / 2)
      Int64.minValue

/- What the chain says about the next header. -/
structure HeaderContext where
  prevHash : Hash256
  prevHeight : UInt32
  medianTimePast : Int64
  expectedBits : UInt32
  now : Int64

/- Whether the timestamp is past what the clock admits. -/
def tooFarAhead
    (timestamp now : Int64) : Bool :=
  match checkedAdd now maxFutureBlockSeconds with
  | none => true
  | some ceiling => decide (timestamp > ceiling)

/- The header fits where it is to go. -/
def contextualCheckBlockHeader
    (header : BlockHeader)
    (context : HeaderContext) : Verdict := do
  rejectIf (header.prevBlock != context.prevHash)
    .headerWrongPrevBlock
  rejectIf
    (context.prevHeight == 0xFFFFFFFF ||
      header.height != context.prevHeight + 1)
    .headerWrongHeight
  rejectIf (header.targetBits != context.expectedBits)
    .headerUnexpectedTarget
  rejectIf
    (decide (header.timestamp ≤ context.medianTimePast))
    .headerTimestampTooOld
  rejectIf (tooFarAhead header.timestamp context.now)
    .headerTimestampTooFarAhead

------------------------------------------------------------
-- Blocks
------------------------------------------------------------

/- The outpoints the non-coinbase transactions spend. -/
def Block.spentOutpoints
    (block : Block) : List OutPoint :=
  (block.transactions.filter
    fun tx => !tx.isCoinbase).flatMap
    fun tx => tx.inputs.map TxInput.outpoint

/- The rules about the coinbase's place in the block. -/
def checkCoinbasePlacement
    (block : Block) : Verdict :=
  match block.transactions with
  | [] => .error .blockNoTransactions
  | first :: rest => do
      rejectIf (!first.isCoinbase) .blockFirstTxNotCoinbase
      rejectIf (rest.any Transaction.isCoinbase)
        .blockMultipleCoinbases
      rejectIf
        (first.inputs.head?.any fun input =>
          input.sequence != block.header.height)
        .blockCoinbaseWrongHeight

/- What can be checked without the chain. -/
def checkBlock
    (c : Crypto)
    (block : Block)
    (params : ChainParams) : Verdict := do
  checkBlockHeader c block.header params
  rejectIf block.transactions.isEmpty .blockNoTransactions
  rejectIf
    (decide (block.transactions.length >
      params.blockLimits.maxTransactions))
    .blockTooManyTransactions
  checkCoinbasePlacement block
  rejectIf (decide (block.weight > params.maxBlockWeight))
    .blockWeightTooLarge
  rejectIf
    (block.computeMerkleRoot c !=
      some block.header.merkleRoot)
    .blockMerkleRootMismatch
  checkAll (fun tx => checkTransaction tx params)
    block.transactions
  rejectIf (!decide block.spentOutpoints.Nodup)
    .blockDuplicateSpend

/- The supply ceiling: reward plus fees bounds the coinbase. -/
def checkCoinbaseAmount
    (block : Block)
    (totalFees : Int64)
    (params : ChainParams) : Verdict :=
  match block.transactions with
  | [] => .error .blockFirstTxNotCoinbase
  | coinbase :: _ => do
      rejectIf (!coinbase.isCoinbase)
        .blockFirstTxNotCoinbase
      rejectIf (!isValidAmount totalFees)
        .blockFeesOutOfRange
      match sumAmounts 0
          (coinbase.outputs.map TxOutput.amount) with
      | none => .error .txOutputSumOutOfRange
      | some claimed =>
          match checkedAdd
              (blockReward block.header.height
                params.issuance)
              totalFees with
          | none => .error .blockCoinbasePaysTooMuch
          | some permitted =>
              if claimed > permitted then
                .error .blockCoinbasePaysTooMuch
              else
                .ok ()

end Amarian
