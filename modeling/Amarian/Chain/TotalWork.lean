import Amarian.Chain.IndexRuns
import Amarian.Consensus.Work

/-
  The work of a chain is the exact sum of its targets' work.

  Key theorems include:
    * `totalWork_grows`
    * `work_exact`
-/

------------------------------------------------------------
-- Children
------------------------------------------------------------

namespace Amarian

/- Below saturation a child has more work than its parent. -/
theorem totalWork_grows
    {c : Crypto}
    {params : ChainParams}
    {index : BlockIndex}
    (hIndex : IndexOk c params index)
    {entry parent : BlockIndexEntry}
    (hBelow : index.below entry parent) :
    (∃ target,
        compactToTarget entry.header.targetBits =
            some target ∧
          entry.totalWork =
            parent.totalWork.add (Work.ofTarget target)) ∧
      (parent.totalWork.amount < 2 ^ 256 - 1 →
        parent.totalWork.less entry.totalWork = true) ∧
      (parent.totalWork.amount = 2 ^ 256 - 1 →
        entry.totalWork = parent.totalWork) := by
  rcases hIndex.tree.work_grows
    (List.mem_map_of_mem hBelow.1)
    (List.mem_map_of_mem hBelow.2.1) hBelow.2.2 with
    ⟨target, hTarget, hSum, hPos⟩
  change entry.totalWork.amount =
    min (parent.totalWork.amount +
      (Work.ofTarget target).amount) _ at hSum
  refine ⟨⟨target, hTarget, ?_⟩, fun hShort => ?_,
    fun hFull => ?_⟩
  · apply Work.amount_inj
    rw [Work.amount_add, hSum]
  · rw [Work.less_iff]
    omega
  · apply Work.amount_inj
    omega

/-
  The work of a target is the exact quotient, sums are exact
  until they saturate, and work grows along every chain.
-/
theorem work_exact
    (c : Crypto)
    (params : ChainParams) :
    (∀ target : Target,
      target ≠ Bytes32.zero →
        (Work.ofTarget target).amount =
            2 ^ 256 / (magnitude target.bytes + 1) ∧
          1 ≤ (Work.ofTarget target).amount) ∧
      (∀ first second : Target,
        first ≠ Bytes32.zero →
          magnitude first.bytes ≤ magnitude second.bytes →
            (Work.ofTarget second).amount ≤
              (Work.ofTarget first).amount) ∧
      (∀ first second : Work,
        (first.add second).amount =
          if first.amount + second.amount < 2 ^ 256 then
            first.amount + second.amount
          else
            2 ^ 256 - 1) ∧
      (∀ first second : Work,
        first.add second = second.add first) ∧
      (∀ first second third : Work,
        (first.add second).add third =
          first.add (second.add third)) ∧
      (∀ first second third fourth : Work,
        first.amount ≤ second.amount →
          third.amount ≤ fourth.amount →
            (first.add third).amount ≤
              (second.add fourth).amount) ∧
      ∀ (calls : List IndexCall)
          (entry parent : BlockIndexEntry),
        (BlockIndex.after c params calls).below entry
            parent →
          parent.totalWork.amount ≠ 2 ^ 256 - 1 →
            parent.totalWork.less entry.totalWork =
              true := by
  refine ⟨fun target hTarget =>
      ⟨Work.amount_ofTarget hTarget,
        Work.amount_ofTarget_pos hTarget⟩,
    fun first second hFirst =>
      Work.amount_ofTarget_anti hFirst,
    fun first second => ?_, Work.add_comm, Work.add_assoc,
    fun first second third fourth hFirst hThird => ?_,
    fun calls entry parent hBelow hShort => ?_⟩
  · rw [Work.amount_add]
    split
    · omega
    · omega
  · refine Nat.le_trans (Work.add_mono hFirst third) ?_
    rw [Work.add_comm second third,
      Work.add_comm second fourth]
    exact Work.add_mono hThird second
  · have hIndex :=
      (IndexOk.forNetwork c params).foldl_call calls
    have hMost := parent.totalWork.amount_lt
    exact (totalWork_grows hIndex hBelow).2.1 (by omega)

end Amarian
