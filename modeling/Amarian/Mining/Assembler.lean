import Amarian.Chain.BlockIndex
import Amarian.Consensus.Rules
import Amarian.Mempool.Templates

/-
  The block that would extend a tip.

  Key definitions include:
    * `TemplateError`
    * `BlockTemplate`
    * `buildBlockTemplate`

  Key theorems include:
    * `buildBlockTemplate_eq_ok`
-/

------------------------------------------------------------
-- Templates
------------------------------------------------------------

namespace Amarian

/- A block that is final but for its nonce. -/
structure BlockTemplate where
  block : Block
  target : Target
  reward : Int64
  fees : Int64

/- Why there is no template. -/
inductive TemplateError where
  | coinbaseDataTooLarge
  | heightOverflow
  | malformedTarget
  | noMerkleRoot
  | headerRefused
  | rewardRefused
deriving DecidableEq, Repr

/- Pays the whole reward to one lock. -/
def coinbaseFor
    (height : UInt32)
    (payout : Lock)
    (amount : Int64)
    (coinbaseData : ByteVec) : Transaction :=
  { version := 1
    inputs := [makeCoinbaseInput height]
    outputs := [{ amount := amount, lock := payout }]
    locktime := 0
    witnesses := []
    coinbaseData := coinbaseData }

/- The median plus one, which saturates. -/
def earliestTimestamp
    (line : List Link) : Int64 :=
  let earliest := medianTimePastAt line
  if earliest < Int64.maxValue then earliest + 1
  else earliest

/- The clock, raised to what the median demands. -/
def templateTimestamp
    (line : List Link)
    (now : Int64) : Int64 :=
  if now < earliestTimestamp line then
    earliestTimestamp line
  else
    now

------------------------------------------------------------
-- Assembly
------------------------------------------------------------

section Assembly

variable (c : Crypto) (tip : Link) (line : List Link)
variable (payout : Lock) (now : Int64)
variable (coinbaseData : ByteVec) (params : ChainParams)
variable (pool : Option Mempool)

/- The coinbase before the fees are known. -/
def scheduledCoinbase : Transaction :=
  coinbaseFor (tip.height + 1) payout
    (blockReward (tip.height + 1) params.issuance)
    coinbaseData

/- Without a pool the template has a coinbase only. -/
def selectedEntries : List Entry :=
  match pool with
  | none => []
  | some pool =>
      pool.getTemplates
        (params.maxBlockWeight -
          (scheduledCoinbase tip payout coinbaseData
            params).weight)

/- A plain running sum. -/
def totalFeesOf
    (selected : List Entry) : Int64 :=
  selected.foldl (fun total entry => total + entry.fee) 0

/- The fees of what was selected. -/
def templateFees : Int64 :=
  totalFeesOf
    (selectedEntries tip payout coinbaseData params pool)

/- The subsidy and the fees. -/
def templateReward : Int64 :=
  blockReward (tip.height + 1) params.issuance +
    templateFees tip payout coinbaseData params pool

/- The coinbase, then what was selected. -/
def templateTransactions : List Transaction :=
  coinbaseFor (tip.height + 1) payout
      (templateReward tip payout coinbaseData params pool)
      coinbaseData ::
    (selectedEntries tip payout coinbaseData params
      pool).map Entry.tx

/- The target that the next header has to carry. -/
def templateBits : UInt32 :=
  nextTargetBitsAt tip (templateTimestamp line now) params

/- The block, but for its nonce. -/
def templateBlock
    (merkleRoot : Hash256) : Block :=
  { header :=
      { version := 1
        height := tip.height + 1
        prevBlock := tip.hash
        merkleRoot := merkleRoot
        timestamp := templateTimestamp line now
        targetBits := templateBits tip line now params
        nonce := 0 }
    transactions :=
      templateTransactions tip payout coinbaseData params
        pool }

/- Judged by the rules that need no solved header. -/
def judgeTemplate
    (block : Block) : Except TemplateError Unit :=
  match
    contextualCheckBlockHeader block.header
      (headerContextFor tip line now params
        (some block.header.timestamp))
  with
  | .error _ => .error .headerRefused
  | .ok _ =>
      match
        checkCoinbaseAmount block
          (templateFees tip payout coinbaseData params pool)
          params
      with
      | .error _ => .error .rewardRefused
      | .ok _ => .ok ()

/-
  The bits are computed twice: those at the tip are checked
  to decode, those at the timestamp are only decoded.
-/
def buildBlockTemplate :
    Except TemplateError BlockTemplate :=
  if coinbaseData.length >
      params.blockLimits.tx.maxCoinbaseDataSize then
    .error .coinbaseDataTooLarge
  else if tip.height = 0xFFFFFFFF then
    .error .heightOverflow
  else if (compactToTarget
      (nextTargetBits tip params)).isNone then
    .error .malformedTarget
  else
    match
      computeMerkleRoot c
        ((templateTransactions tip payout coinbaseData params
          pool).map (Transaction.wtxid c))
    with
    | none => .error .noMerkleRoot
    | some root => do
        let block :=
          templateBlock tip line payout now coinbaseData
            params pool root
        judgeTemplate tip line payout now coinbaseData params
          pool block
        return {
          block := block
          target :=
            (compactToTarget block.header.targetBits).getD
              Bytes32.zero
          reward :=
            templateReward tip payout coinbaseData params pool
          fees :=
            templateFees tip payout coinbaseData params pool }

theorem judgeTemplate_eq_ok
    {block : Block} :
    judgeTemplate tip line payout now coinbaseData params pool
        block = .ok () ↔
      contextualCheckBlockHeader block.header
          (headerContextFor tip line now params
            (some block.header.timestamp)) = .ok () ∧
        checkCoinbaseAmount block
            (templateFees tip payout coinbaseData params pool)
            params = .ok () := by
  unfold judgeTemplate
  split
  · rename_i error hHeader
    simp [hHeader]
  · rename_i hHeader
    rw [hHeader]
    split
    · rename_i error hReward
      simp [hReward]
    · rename_i hReward
      simp [hReward]

/- What a template that was built is made of. -/
theorem buildBlockTemplate_eq_ok
    {assembled : BlockTemplate}
    (hBuilt :
      buildBlockTemplate c tip line payout now coinbaseData
        params pool = .ok assembled) :
    coinbaseData.length ≤
        params.blockLimits.tx.maxCoinbaseDataSize ∧
      tip.height ≠ 0xFFFFFFFF ∧
      (∃ target,
        compactToTarget (nextTargetBits tip params) =
          some target) ∧
      ∃ root,
        computeMerkleRoot c
            ((templateTransactions tip payout coinbaseData
              params pool).map (Transaction.wtxid c)) =
          some root ∧
        assembled.block =
          templateBlock tip line payout now coinbaseData
            params pool root ∧
        assembled.target =
          (compactToTarget
            (templateBits tip line now params)).getD
              Bytes32.zero ∧
        judgeTemplate tip line payout now coinbaseData params
            pool assembled.block = .ok () := by
  unfold buildBlockTemplate at hBuilt
  split at hBuilt
  · cases hBuilt
  rename_i hData
  split at hBuilt
  · cases hBuilt
  rename_i hHeight
  split at hBuilt
  · cases hBuilt
  rename_i hTarget
  split at hBuilt
  · cases hBuilt
  rename_i root hRoot
  dsimp only at hBuilt
  rw [except_check_eq_ok] at hBuilt
  rcases hBuilt with ⟨hJudged, hDone⟩
  cases hDone
  refine ⟨by omega, hHeight, ?_, root, hRoot, rfl, rfl,
    hJudged⟩
  exact Option.ne_none_iff_exists'.mp fun hNone => by
    rw [hNone] at hTarget
    exact hTarget rfl

end Assembly

end Amarian
