import Mathlib.Algebra.Order.Field.Basic
import Mathlib.Algebra.Order.Field.Rat
import Mathlib.Data.Prod.Lex
import Mathlib.Order.WithBot
import Amarian.Consensus.Magnitude
import Amarian.Mempool.Templates

/-
  Fee rates as fractions, and the two orders made of them.

  The comparison of the source is that of the fractions, a
  package without weight below all others. With the ids for
  ties both orders are linear, so what they pick from some
  candidates does not depend on how these are walked.

  Key definitions include:
    * `feerate`
    * `Mempool.Candidate.turn`
    * `Mempool.Candidate.cost`

  Key theorems include:
    * `compareFeerate_rate`
    * `Mempool.precedes_iff`
    * `Mempool.isWorse_iff`
-/

------------------------------------------------------------
-- Fractions
------------------------------------------------------------

namespace Amarian

/- The rate as an exact fraction; without weight it is below all
   others. -/
def feerate
    (fee : Int64)
    (weight : Nat) : WithBot ℚ :=
  if weight = 0 then
    ⊥
  else
    (((scaledFee fee).toNat : ℚ) / weight : ℚ)

theorem feerate_zero
    (fee : Int64) :
    feerate fee 0 = ⊥ :=
  if_pos rfl

theorem feerate_of_pos
    (fee : Int64)
    {weight : Nat}
    (hWeight : weight ≠ 0) :
    feerate fee weight =
      (((scaledFee fee).toNat : ℚ) / weight : ℚ) :=
  if_neg hWeight

/- Fractions compare as their cross products do. -/
theorem compare_div
    {feeA weightA feeB weightB : Nat}
    (hA : weightA ≠ 0)
    (hB : weightB ≠ 0) :
    compare (feeA * weightB) (feeB * weightA) =
      compare ((feeA : ℚ) / weightA) ((feeB : ℚ) / weightB) := by
  have hPosA : (0 : ℚ) < weightA := by
    exact_mod_cast Nat.pos_of_ne_zero hA
  have hPosB : (0 : ℚ) < weightB := by
    exact_mod_cast Nat.pos_of_ne_zero hB
  have hLess :
      ∀ {x y u v : Nat}, (0 : ℚ) < u → (0 : ℚ) < v →
        x * v < y * u → (x : ℚ) / u < (y : ℚ) / v := by
    intro x y u v hU hV hCross
    rw [div_lt_div_iff₀ hU hV]
    exact_mod_cast hCross
  rcases Nat.lt_trichotomy (feeA * weightB)
      (feeB * weightA) with hLow | hSame | hHigh
  · rw [compare_lt_iff_lt.mpr hLow,
      compare_lt_iff_lt.mpr (hLess hPosA hPosB hLow)]
  · have hRates :
        (feeA : ℚ) / weightA = (feeB : ℚ) / weightB := by
      rw [div_eq_div_iff hPosA.ne' hPosB.ne']
      exact_mod_cast hSame
    rw [compare_eq_iff_eq.mpr hSame,
      compare_eq_iff_eq.mpr hRates]
  · rw [compare_gt_iff_gt.mpr hHigh,
      compare_gt_iff_gt.mpr (hLess hPosB hPosA hHigh)]

theorem compare_coe
    (x y : ℚ) :
    compare (x : WithBot ℚ) (y : WithBot ℚ) =
      compare x y := by
  rcases lt_trichotomy x y with hLow | rfl | hHigh
  · rw [compare_lt_iff_lt.mpr hLow, compare_lt_iff_lt.mpr
      (WithBot.coe_lt_coe.mpr hLow)]
  · rw [compare_eq_iff_eq.mpr rfl, compare_eq_iff_eq.mpr rfl]
  · rw [compare_gt_iff_gt.mpr hHigh, compare_gt_iff_gt.mpr
      (WithBot.coe_lt_coe.mpr hHigh)]

/- Whatever the fees, as long as the weights fit. -/
theorem compareFeerate_rate
    {feeA feeB : Int64}
    {weightA weightB : Nat}
    (hA : weightA < 2 ^ 64)
    (hB : weightB < 2 ^ 64) :
    compareFeerate feeA weightA feeB weightB =
      compare (feerate feeA weightA)
        (feerate feeB weightB) := by
  have hFull :
      ∀ weight < 2 ^ 64,
        (UInt64.ofNat weight).toNat = weight :=
    fun _ hWeight => UInt64.toNat_ofNat_of_lt' hWeight
  unfold compareFeerate
  by_cases hNoA : weightA = 0
  · rw [if_pos (.inl hNoA)]
    by_cases hNoB : weightB = 0
    · rw [if_pos (hNoA.trans hNoB.symm), hNoA, hNoB,
        feerate_zero, feerate_zero]
      exact (compare_eq_iff_eq.mpr rfl).symm
    · rw [if_neg (by omega), if_pos hNoA, hNoA, feerate_zero,
        feerate_of_pos _ hNoB]
      exact (compare_lt_iff_lt.mpr
        (WithBot.bot_lt_coe _)).symm
  · by_cases hNoB : weightB = 0
    · rw [if_pos (.inr hNoB), if_neg (by omega), if_neg hNoA,
        hNoB, feerate_zero, feerate_of_pos _ hNoA]
      exact (compare_gt_iff_gt.mpr
        (WithBot.bot_lt_coe _)).symm
    · rw [if_neg (by omega), compareProducts_eq, mul64_exact,
        mul64_exact, hFull weightA hA, hFull weightB hB,
        feerate_of_pos _ hNoA, feerate_of_pos _ hNoB,
        compare_coe, compare_div hNoA hNoB]

------------------------------------------------------------
-- Ids
------------------------------------------------------------

theorem magnitude_injective
    {first second : Hash256}
    (hSame : magnitude first.bytes = magnitude second.bytes) :
    first = second := by
  have hLength :
      first.bytes.length = second.bytes.length := by
    rw [first.size_eq, second.size_eq]
  by_contra hNe
  have hBytes : first.bytes ≠ second.bytes := by
    intro hEq
    cases first
    cases second
    cases hEq
    exact hNe rfl
  cases hLess : bytesLess first.bytes second.bytes with
  | true =>
      have hLow := (bytesLess_iff hLength).mp hLess
      omega
  | false =>
      have hHigh := (bytesLess_iff hLength.symm).mp
        (bytesLess_total hLength hBytes hLess)
      omega

namespace Mempool

------------------------------------------------------------
-- The Two Orders
------------------------------------------------------------

/- What a package pays for each unit of weight. -/
def Candidate.rate
    (candidate : Candidate) : WithBot ℚ :=
  feerate candidate.fee candidate.weight

/- A miner takes the best rates first. -/
def Candidate.turn
    (candidate : Candidate) : (WithBot ℚ)ᵒᵈ ×ₗ ℕ :=
  toLex (OrderDual.toDual candidate.rate,
    magnitude candidate.id.bytes)

/- A trim evicts the worst rates first. -/
def Candidate.cost
    (candidate : Candidate) : WithBot ℚ ×ₗ ℕ :=
  toLex (candidate.rate, magnitude candidate.id.bytes)

section Comparing

variable {first second : Candidate}

theorem precedes_iff
    (hFirst : first.weight < 2 ^ 64)
    (hSecond : second.weight < 2 ^ 64) :
    first.precedes second = true ↔
      first.turn < second.turn := by
  have hLength :
      first.id.bytes.length = second.id.bytes.length := by
    rw [first.id.size_eq, second.id.size_eq]
  unfold Candidate.precedes Candidate.turn
  rw [show compareFeerate first.fee first.weight second.fee
      second.weight = compare first.rate second.rate from
    compareFeerate_rate hFirst hSecond,
    Prod.Lex.toLex_lt_toLex]
  change _ ↔ second.rate < first.rate ∨
    first.rate = second.rate ∧ _
  rcases lt_trichotomy first.rate second.rate with
    hLow | hSame | hHigh
  · rw [compare_lt_iff_lt.mpr hLow]
    simp [hLow.not_gt, hLow.ne]
  · rw [compare_eq_iff_eq.mpr hSame]
    simp [hSame, bytesLess_iff hLength]
  · rw [compare_gt_iff_gt.mpr hHigh]
    simp [hHigh]

theorem isWorse_iff
    (hFirst : first.weight < 2 ^ 64)
    (hSecond : second.weight < 2 ^ 64) :
    first.isWorse second = true ↔
      first.cost < second.cost := by
  have hLength :
      first.id.bytes.length = second.id.bytes.length := by
    rw [first.id.size_eq, second.id.size_eq]
  unfold Candidate.isWorse Candidate.cost
  rw [show compareFeerate first.fee first.weight second.fee
      second.weight = compare first.rate second.rate from
    compareFeerate_rate hFirst hSecond,
    Prod.Lex.toLex_lt_toLex]
  rcases lt_trichotomy first.rate second.rate with
    hLow | hSame | hHigh
  · rw [compare_lt_iff_lt.mpr hLow]
    simp [hLow]
  · rw [compare_eq_iff_eq.mpr hSame]
    simp [hSame, bytesLess_iff hLength]
  · rw [compare_gt_iff_gt.mpr hHigh]
    simp [hHigh.not_gt, hHigh.ne']

end Comparing

------------------------------------------------------------
-- Strict Total Orders
------------------------------------------------------------

/- An order that compares keys, when no two ids share one. -/
theorem strictTotal_of_key
    {β : Type}
    [LinearOrder β]
    {key : Hash256 → β}
    {less : Hash256 → Hash256 → Prop}
    (hInjective : key.Injective)
    (hLess :
      ∀ first second,
        less first second ↔ key first < key second) :
    IsStrictTotalOrder Hash256 less :=
  RelEmbedding.isStrictTotalOrder (s := (· < ·))
    ⟨⟨key, hInjective⟩,
      fun {first second} => (hLess first second).symm⟩

section Offers

variable {offer : Hash256 → Candidate}

theorem cost_injective
    (hIds : ∀ id, (offer id).id = id) :
    Function.Injective fun id => (offer id).cost := by
  intro first second hSame
  have hMagnitude := congrArg
    (fun cost : WithBot ℚ ×ₗ ℕ => (ofLex cost).2) hSame
  dsimp only [Candidate.cost, ofLex_toLex] at hMagnitude
  rw [hIds, hIds] at hMagnitude
  exact magnitude_injective hMagnitude

theorem turn_injective
    (hIds : ∀ id, (offer id).id = id) :
    Function.Injective fun id => (offer id).turn := by
  intro first second hSame
  have hMagnitude := congrArg
    (fun turn : (WithBot ℚ)ᵒᵈ ×ₗ ℕ => (ofLex turn).2) hSame
  dsimp only [Candidate.turn, ofLex_toLex] at hMagnitude
  rw [hIds, hIds] at hMagnitude
  exact magnitude_injective hMagnitude

end Offers

------------------------------------------------------------
-- Exact Comparison
------------------------------------------------------------

/- Fees of any sign and weights of any size are compared. -/
theorem compareFeerate_max
    {feeA feeB : Int64}
    {weightA weightB : UInt64}
    (hA : 0 < weightA)
    (hB : 0 < weightB) :
    compareFeerate feeA weightA.toNat feeB weightB.toNat =
      compare (max feeA.toInt 0 * weightB.toNat)
        (max feeB.toInt 0 * weightA.toNat) := by
  rw [UInt64.lt_iff_toNat_lt, UInt64.toNat_zero] at hA hB
  unfold compareFeerate
  rw [if_neg (by omega), compareProducts_eq, mul64_exact,
    mul64_exact, UInt64.ofNat_toNat, UInt64.ofNat_toNat,
    ← scaledFee_max, ← scaledFee_max, ← Int.natCast_mul,
    ← Int.natCast_mul, compare_natCast]

/-
  The products are exact, the comparison is that of the
  fractions and a total preorder on all fees and weights,
  and with the ids for ties both orders are strict and
  total, whatever each entry is offered at.
-/
theorem feerates_ordered :
    (∀ a b : UInt64,
      (mul64 a b).toNat = a.toNat * b.toNat) ∧
    (∀ (feeA feeB : Int64) (weightA weightB : UInt64),
      0 < weightA → 0 < weightB →
        compareFeerate feeA weightA.toNat feeB
            weightB.toNat =
          compare (max feeA.toInt 0 * weightB.toNat)
            (max feeB.toInt 0 * weightA.toNat)) ∧
    (∀ (fee : Int64) (weight : UInt64),
      compareFeerate fee weight.toNat fee weight.toNat =
        .eq) ∧
    (∀ (feeA feeB : Int64) (weightA weightB : UInt64),
      compareFeerate feeB weightB.toNat feeA
          weightA.toNat =
        (compareFeerate feeA weightA.toNat feeB
          weightB.toNat).swap) ∧
    (∀ (feeA feeB feeC : Int64)
        (weightA weightB weightC : UInt64),
      compareFeerate feeA weightA.toNat feeB
            weightB.toNat ≠ .gt →
        compareFeerate feeB weightB.toNat feeC
            weightC.toNat ≠ .gt →
          compareFeerate feeA weightA.toNat feeC
            weightC.toNat ≠ .gt) ∧
    ∀ offer : Hash256 → Candidate,
      (∀ id, (offer id).id = id) →
        (∀ id, (offer id).weight < 2 ^ 64) →
          IsStrictTotalOrder Hash256
              (fun first second =>
                (offer first).isWorse (offer second) =
                  true) ∧
            IsStrictTotalOrder Hash256
              (fun first second =>
                (offer first).precedes (offer second) =
                  true) := by
  refine ⟨mul64_exact, ?_, ?_, ?_, ?_, ?_⟩
  · intro feeA feeB weightA weightB hA hB
    exact compareFeerate_max hA hB
  · intro fee weight
    rw [compareFeerate_rate weight.toNat_lt weight.toNat_lt]
    exact Std.compare_self
  · intro feeA feeB weightA weightB
    rw [compareFeerate_rate weightB.toNat_lt weightA.toNat_lt,
      compareFeerate_rate weightA.toNat_lt weightB.toNat_lt]
    exact Std.OrientedOrd.eq_swap
  · intro feeA feeB feeC weightA weightB weightC
    rw [compareFeerate_rate weightA.toNat_lt weightB.toNat_lt,
      compareFeerate_rate weightB.toNat_lt weightC.toNat_lt,
      compareFeerate_rate weightA.toNat_lt weightC.toNat_lt,
      compare_le_iff_le, compare_le_iff_le, compare_le_iff_le]
    exact le_trans
  · intro offer hIds hWeights
    exact
      ⟨strictTotal_of_key (cost_injective hIds)
          fun first second => isWorse_iff (hWeights first)
            (hWeights second),
        strictTotal_of_key (turn_injective hIds)
          fun first second => precedes_iff (hWeights first)
            (hWeights second)⟩

end Mempool

end Amarian
