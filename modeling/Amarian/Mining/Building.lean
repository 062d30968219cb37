import Amarian.Consensus.Monotone
import Amarian.Mining.Acceptable
import Amarian.Primitives.Binding

/-
  Templates can always be built.

  The bits are computed from the timestamp that the assembler
  chose, and judged against those computed from the header;
  the two are one call.  Everything else the rules ask of a
  header is what the assembler put into it, so only the clock
  and the sum of the fees are left to go wrong.

  Key definitions include:
    * `InTime`
    * `Mempool.NoDebts`

  Key theorems include:
    * `nextTargetBits_decodes`
    * `Mempool.noDebts_run`
    * `contextual_template`
    * `checkCoinbaseAmount_template`
    * `exists_template`
    * `buildBlockTemplate_succeeds`
-/

------------------------------------------------------------
-- Targets
------------------------------------------------------------

namespace Amarian

/- At genesis the rule reads no clock. -/
theorem asertNextBits_start
    (anchorBits : UInt32)
    (anchorTime : Int64)
    {heightDelta : Int64}
    (hHeight : heightDelta ≤ 0)
    (tipTime spacingSeconds halfLifeSeconds : Int64)
    (powLimitBits : UInt32) :
    asertNextBits anchorBits anchorTime heightDelta tipTime
        spacingSeconds halfLifeSeconds powLimitBits =
      asertNextBits anchorBits 0 0 0 0 0 powLimitBits := by
  unfold asertNextBits
  simp only [if_pos hHeight, if_pos (Int64.le_refl 0)]

/- Every tip has a next target that can be written down. -/
theorem nextTargetBits_decodes
    (network : Network)
    (tip : Link) :
    ∃ target,
      compactToTarget
          (nextTargetBits tip (paramsFor network)) =
        some target := by
  rcases powLimit_decodes network with ⟨floor, hFloor⟩
  unfold nextTargetBits
  split
  · exact ⟨floor, hFloor⟩
  unfold asertNextBitsFor
  by_cases hStart : tip.height = 0
  · have hHeight : Int64.ofNat (UInt32.toNat 0) ≤ 0 := by
      decide
    rw [hStart, asertNextBits_start _ _ hHeight]
    apply Option.isSome_iff_exists.mp
    cases network
    · rfl
    · rfl
    · rfl
  · have hAnchor :
        compactToTarget (paramsFor network).genesisBits =
          some floor := by
      rw [← hFloor]
      cases network
      · rfl
      · rfl
      · rfl
    have hHeight :
        1 ≤ Int64.ofNat tip.height.toNat := by
      have hLess := tip.height.toNat_lt
      have hPos : tip.height.toNat ≠ 0 := fun hZero =>
        hStart (UInt32.toNat_inj.mp hZero)
      rw [Int64.le_iff_toInt_le,
        Int64.toInt_ofNat_of_lt (by omega)]
      change (1 : Int) ≤ _
      omega
    rcases asertNextBits_decodes hAnchor hFloor
      (paramsFor network).genesisTimestamp hHeight
      tip.header.timestamp
      (paramsFor network).targetBlockSeconds
      (paramsFor network).asertHalfLifeSeconds with
      ⟨target, hTarget, -⟩
    exact ⟨target, hTarget⟩

------------------------------------------------------------
-- Judging The Template
------------------------------------------------------------

/- The clock allows the block after the median. -/
structure InTime
    (line : List Link)
    (now : Int64) : Prop where
  fits :
    FitsInt64 (now.toInt + maxFutureBlockSeconds.toInt)
  reaches :
    (medianTimePastAt line).toInt + 1 ≤
      now.toInt + maxFutureBlockSeconds.toInt

section Judging

variable {tip : Link} {line : List Link} {payout : Lock}
variable {now : Int64} {coinbaseData : ByteVec}
variable {params : ChainParams} {pool : Option Mempool}

/- The timestamp is after the median and before the limit. -/
theorem InTime.timestamp
    (hClock : InTime line now) :
    (medianTimePastAt line).toInt <
        (templateTimestamp line now).toInt ∧
      (templateTimestamp line now).toInt ≤
        now.toInt + maxFutureBlockSeconds.toInt := by
  have hReaches := hClock.reaches
  have hFits := hClock.fits.2
  have hAhead : (0 : Int) ≤ maxFutureBlockSeconds.toInt := by
    decide
  have hBelow :
      medianTimePastAt line < Int64.maxValue := by
    rw [Int64.lt_iff_toInt_lt]
    change _ < (9223372036854775807 : Int)
    omega
  have hNext :
      (earliestTimestamp line).toInt =
        (medianTimePastAt line).toInt + 1 := by
    have hLow := (medianTimePastAt line).le_toInt
    unfold earliestTimestamp
    dsimp only
    rw [if_pos hBelow]
    apply toInt_add_of_fits
    change FitsInt64 (_ + 1)
    exact ⟨by omega, by omega⟩
  unfold templateTimestamp
  split
  · omega
  · rename_i hLate
    rw [Int64.lt_iff_toInt_lt, hNext] at hLate
    omega

theorem contextual_template
    (hTop : tip.height ≠ 0xFFFFFFFF)
    (hClock : InTime line now)
    (root : Hash256) :
    contextualCheckBlockHeader
        (templateBlock tip line payout now coinbaseData params
          pool root).header
        (headerContextFor tip line now params
          (some (templateTimestamp line now))) =
      .ok () := by
  rcases hClock.timestamp with ⟨hAfter, hBefore⟩
  unfold contextualCheckBlockHeader templateBlock
    headerContextFor templateBits
  dsimp only
  rw [except_check_eq_ok, except_check_eq_ok,
    except_check_eq_ok, except_check_eq_ok, rejectIf_eq_ok,
    rejectIf_eq_ok, rejectIf_eq_ok, rejectIf_eq_ok,
    rejectIf_eq_ok]
  refine ⟨bne_self_eq_false _, ?_, ?_, ?_, ?_⟩
  · rw [Bool.or_eq_false_iff]
    exact ⟨beq_eq_false_iff_ne.mpr hTop, bne_self_eq_false _⟩
  · exact bne_self_eq_false _
  · rw [decide_eq_false_iff_not, Int64.le_iff_toInt_le]
    omega
  · exact tooFarAhead_eq_false hBefore hClock.fits

/- The coinbase takes what the schedule and the fees give. -/
theorem checkCoinbaseAmount_template
    (hReward :
      0 ≤ (blockReward (tip.height + 1)
        params.issuance).toInt)
    (hPaid :
      ∀ entry ∈
        selectedEntries tip payout coinbaseData params pool,
        0 ≤ entry.fee.toInt)
    (hMoney :
      (blockReward (tip.height + 1) params.issuance).toInt +
          ((selectedEntries tip payout coinbaseData params
            pool).map fun entry => entry.fee.toInt).sum ≤
        maxMoney.toInt)
    (root : Hash256) :
    checkCoinbaseAmount
        (templateBlock tip line payout now coinbaseData params
          pool root)
        (templateFees tip payout coinbaseData params pool)
        params =
      .ok () := by
  have hFees :
      ∀ fee ∈
        (selectedEntries tip payout coinbaseData params
          pool).map fun entry => entry.fee.toInt,
        0 ≤ fee := by
    intro fee hFee
    rcases List.mem_map.mp hFee with ⟨entry, hEntry, rfl⟩
    exact hPaid entry hEntry
  have hNonneg := List.sum_nonneg hFees
  have hCap : maxMoney.toInt = 83999999932170000 := rfl
  have hTotal :
      (templateFees tip payout coinbaseData params
          pool).toInt =
        ((selectedEntries tip payout coinbaseData params
          pool).map fun entry => entry.fee.toInt).sum :=
    totalFeesOf_toInt hFees (by omega)
  have hValid :
      isValidAmount
          (templateFees tip payout coinbaseData params pool) =
        true := by
    rw [isValidAmount_iff]
    omega
  have hScheduled :
      isValidAmount
          (blockReward (tip.height + 1) params.issuance) =
        true := by
    rw [isValidAmount_iff]
    omega
  have hSum :
      checkedAdd
          (blockReward (tip.height + 1) params.issuance)
          (templateFees tip payout coinbaseData params
            pool) =
        some
          (templateReward tip payout coinbaseData params
            pool) := by
    rcases Exact.checkedAdd_of_valid hScheduled hValid with
      ⟨next, hNext, -⟩
    unfold checkedAdd at hNext ⊢
    split at hNext
    · exact if_pos ‹_›
    · cases hNext
  have hRewardValid :
      isValidAmount
          (templateReward tip payout coinbaseData params
            pool) =
        true := by
    rw [isValidAmount_iff, checkedAdd_eq_some hSum]
    omega
  have hClaimed :
      sumAmounts 0
          [templateReward tip payout coinbaseData params
            pool] =
        some
          (templateReward tip payout coinbaseData params
            pool) := by
    rw [isValidAmount_iff] at hRewardValid
    rcases @sumAmounts_of_le 0
      [templateReward tip payout coinbaseData params pool]
      (Int.le_refl 0)
      (fun amount hAmount => by
        rw [List.mem_singleton.mp hAmount]
        exact hRewardValid.1)
      (by
        rw [List.map_singleton, List.sum_singleton]
        change 0 + _ ≤ _
        omega) with ⟨claimed, hClaimed⟩
    have hExact := sumAmounts_toInt hClaimed
    rw [List.map_singleton, List.sum_singleton] at hExact
    change _ = 0 + _ at hExact
    rw [hClaimed, Option.some_inj]
    apply Int64.toInt_inj.mp
    omega
  unfold checkCoinbaseAmount templateBlock
    templateTransactions
  dsimp only
  rw [except_check_eq_ok, except_check_eq_ok, rejectIf_eq_ok,
    rejectIf_eq_ok, hValid]
  refine ⟨rfl, rfl, ?_⟩
  rw [show sumAmounts 0
      ((coinbaseFor (tip.height + 1) payout
        (templateReward tip payout coinbaseData params pool)
        coinbaseData).outputs.map TxOutput.amount) = _ from
    hClaimed, hSum]
  dsimp only
  rw [if_neg]
  rw [gt_iff_lt, Int64.lt_iff_toInt_lt]
  omega

end Judging

------------------------------------------------------------
-- Building
------------------------------------------------------------

/- No entry pays less than nothing. -/
def Mempool.NoDebts
    (pool : Mempool) : Prop :=
  ∀ id entry, pool.find id = some entry →
    0 ≤ entry.fee.toInt

/- Whatever was called, an entry pays what it was let in for. -/
theorem Mempool.noDebts_run
    (c : Crypto)
    (params : ChainParams)
    (calls : List PoolCall) :
    (run c params calls).NoDebts := by
  intro id entry hFind
  rcases Option.map_eq_some_iff.mp hFind with
    ⟨links, hFound, rfl⟩
  exact Int.le_of_lt
    ((run_sound c params calls).1.admitted id links
      hFound).fee

theorem selectedEntries_paid
    {tip : Link}
    {payout : Lock}
    {coinbaseData : ByteVec}
    {params : ChainParams}
    {pool : Option Mempool}
    (hPool : ∀ held, pool = some held → held.NoDebts) :
    ∀ entry ∈
      selectedEntries tip payout coinbaseData params pool,
      0 ≤ entry.fee.toInt := by
  cases pool with
  | none => exact fun _ hEntry => nomatch hEntry
  | some held =>
      intro entry hEntry
      have hPicked := (Mempool.picked_selection held
        (params.maxBlockWeight -
          (scheduledCoinbase tip payout coinbaseData
            params).weight)).1
      rcases Mempool.selected_lookup hPicked.found hEntry with
        ⟨id, -, links, hFound, rfl⟩
      exact hPool held rfl id links.entry
        (Mempool.find_of_lookup hFound)

/- A list that is not empty has a root. -/
theorem computeMerkleRoot_cons
    (c : Crypto)
    (wtxid : Hash256)
    (wtxids : List Hash256) :
    ∃ root,
      computeMerkleRoot c (wtxid :: wtxids) = some root := by
  rw [computeMerkleRoot_eq]
  cases hMessages : rootMessages c (wtxid :: wtxids) with
  | nil =>
      have hLength := length_rootMessages c (wtxid :: wtxids)
      rw [hMessages, List.length_nil, List.length_cons]
        at hLength
      omega
  | cons message messages => exact ⟨_, rfl⟩

/- A block that passes is a template, with its own target. -/
theorem exists_template
    {c : Crypto}
    {network : Network}
    {tip : Link}
    {line : List Link}
    {payout : Lock}
    {now : Int64}
    {coinbaseData : ByteVec}
    {pool : Option Mempool}
    (hTop : tip.height ≠ 0xFFFFFFFF)
    (hData :
      coinbaseData.length ≤
        (paramsFor
          network).blockLimits.tx.maxCoinbaseDataSize)
    (hJudged :
      ∀ root,
        judgeTemplate tip line payout now coinbaseData
            (paramsFor network) pool
            (templateBlock tip line payout now coinbaseData
              (paramsFor network) pool root) =
          .ok ()) :
    ∃ assembled,
      buildBlockTemplate c tip line payout now coinbaseData
            (paramsFor network) pool =
          .ok assembled ∧
        compactToTarget assembled.block.header.targetBits =
          some assembled.target := by
  rcases nextTargetBits_decodes network tip with
    ⟨first, hFirst⟩
  have hBits :
      ∃ target floor,
        compactToTarget
              (templateBits tip line now
                (paramsFor network)) =
            some target ∧
          compactToTarget
              (paramsFor network).powLimitBits =
            some floor ∧
          bytesLess floor.bytes target.bytes = false :=
    templateBits_decode rfl hFirst
  rcases hBits with ⟨target, -, hTarget, -⟩
  have hRoot :
      ∃ root,
        computeMerkleRoot c
            ((templateTransactions tip payout coinbaseData
              (paramsFor network) pool).map
                (Transaction.wtxid c)) =
          some root := by
    rw [templateTransactions, List.map_cons]
    exact computeMerkleRoot_cons ..
  rcases hRoot with ⟨root, hRoot⟩
  have hSome :
      (compactToTarget
          (nextTargetBits tip
            (paramsFor network))).isNone = false := by
    rw [hFirst]
    rfl
  unfold buildBlockTemplate
  rw [if_neg (Nat.not_lt.mpr hData), if_neg hTop,
    if_neg (Bool.eq_false_iff.mp hSome), hRoot]
  dsimp only
  rw [hJudged root]
  refine ⟨_, rfl, ?_⟩
  change compactToTarget
      (templateBits tip line now (paramsFor network)) =
    some ((compactToTarget
      (templateBits tip line now
        (paramsFor network))).getD Bytes32.zero)
  rw [hTarget]
  rfl

/-
  On every network and every tip with room above it: a clock
  that is not too far behind, data that fits and fees within
  the supply are enough, and the target is that of the bits.
-/
theorem buildBlockTemplate_succeeds
    (c : Crypto)
    (network : Network)
    (tip : Link)
    (line : List Link)
    (payout : Lock)
    (now : Int64)
    (coinbaseData : ByteVec)
    (pool : Option Mempool)
    (hTop : tip.height ≠ 0xFFFFFFFF)
    (hClock : InTime line now)
    (hData :
      coinbaseData.length ≤
        (paramsFor
          network).blockLimits.tx.maxCoinbaseDataSize)
    (hPool : ∀ held, pool = some held → held.NoDebts)
    (hMoney :
      (blockReward (tip.height + 1)
            (paramsFor network).issuance).toInt +
          ((selectedEntries tip payout coinbaseData
            (paramsFor network) pool).map
              fun entry => entry.fee.toInt).sum ≤
        maxMoney.toInt) :
    ∃ assembled,
      buildBlockTemplate c tip line payout now coinbaseData
            (paramsFor network) pool =
          .ok assembled ∧
        compactToTarget assembled.block.header.targetBits =
          some assembled.target := by
  have hReward := ((sound_paramsFor
    network).blockReward_bounds (tip.height + 1)).1
  apply exists_template hTop hData
  intro root
  rw [judgeTemplate_eq_ok]
  exact ⟨contextual_template hTop hClock root,
    checkCoinbaseAmount_template hReward
      (selectedEntries_paid hPool) hMoney root⟩

namespace Sample

/- Above testnet's genesis, long after it. -/
def testnetTip : Link :=
  { header :=
      (buildGenesisBlock Crypto.reference testnetParams).header
    hash := Bytes32.zero
    height := 0
    totalWork := Work.zero
    parent := none
    sequence := 0 }

/- Past the timestamps of the samples. -/
def lateClock : Int64 :=
  genesisTimestamp + 1000000

theorem lateClock_inTime :
    InTime [testnetTip] lateClock where
  fits := by decide
  reaches := by decide

/- What is left after the parent was mined. -/
def testnetPool : Mempool :=
  Mempool.run Crypto.reference testnetParams parentMined

theorem testnetPool_noDebts
    (held : Mempool)
    (hHeld : some testnetPool = some held) :
    held.NoDebts := by
  rw [← Option.some_inj.mp hHeld]
  exact Mempool.noDebts_run _ _ _

/- The bits are those of the network's floor. -/
theorem buildBlockTemplate_late :
    ∃ assembled,
      buildBlockTemplate Crypto.reference testnetTip
            [testnetTip] openLock lateClock []
            (paramsFor .testnet) (some testnetPool) =
          .ok assembled ∧
        compactToTarget assembled.block.header.targetBits =
          some assembled.target :=
  buildBlockTemplate_succeeds Crypto.reference .testnet
    testnetTip [testnetTip] openLock lateClock []
    (some testnetPool) (by decide) lateClock_inTime
    (Nat.zero_le _) testnetPool_noDebts (by decide +kernel)

end Sample

end Amarian
