import Amarian.Chain.BlockIndex

/-
  Chain selection: the order `isBetterTip` puts on entries,
  and the best entry of a list.

  Key definitions include:
    * `Link.outranks`
    * `IsBest`

  Key theorems include:
    * `isBetterTip_iff`
    * `Link.outranks_trans`
    * `Link.outranks_total`
    * `rescanForBestHeader_isBest`
-/

------------------------------------------------------------
-- The Order
------------------------------------------------------------

namespace Amarian

/- The order among blocks that are not ruled out. -/
def Link.outranks
    (candidate incumbent : Link) : Prop :=
  incumbent.totalWork.less candidate.totalWork = true ∨
    (candidate.totalWork = incumbent.totalWork ∧
      candidate.sequence < incumbent.sequence)

theorem isBetterTip_iff
    (candidate incumbent : BlockIndexEntry) :
    isBetterTip candidate incumbent = true ↔
      candidate.isEligible = true ∧
        (incumbent.isEligible = true →
          candidate.toLink.outranks incumbent.toLink) := by
  unfold isBetterTip Link.outranks
  cases candidate.isEligible <;>
    cases incumbent.isEligible
  · simp
  · simp
  · simp
  · by_cases hWork :
        candidate.totalWork = incumbent.totalWork
    · simp [hWork]
    · simp [hWork]

namespace Link

theorem outranks_irrefl
    (link : Link) :
    ¬link.outranks link := by
  simp [outranks]

theorem outranks_trans
    {a b d : Link}
    (hab : a.outranks b)
    (hbd : b.outranks d) :
    a.outranks d := by
  rcases hab with hab | ⟨hab, hab'⟩
  · rcases hbd with hbd | ⟨hbd, -⟩
    · exact Or.inl (Work.less_trans hbd hab)
    · rw [hbd] at hab
      exact Or.inl hab
  · rcases hbd with hbd | ⟨hbd, hbd'⟩
    · rw [← hab] at hbd
      exact Or.inl hbd
    · exact Or.inr ⟨hab.trans hbd, hab'.trans hbd'⟩

/- Arrival numbers decide between blocks of equal work. -/
theorem outranks_total
    {a b : Link}
    (hSequence : a.sequence ≠ b.sequence) :
    a.outranks b ∨ b.outranks a := by
  rcases Work.less_trichotomy a.totalWork b.totalWork with
    hLess | hEq | hLess
  · exact Or.inr (Or.inl hLess)
  · rcases Nat.lt_or_gt_of_ne hSequence with hLt | hGt
    · exact Or.inl (Or.inr ⟨hEq, hLt⟩)
    · exact Or.inr (Or.inr ⟨hEq.symm, hGt⟩)
  · exact Or.inl (Or.inl hLess)

theorem outranks_asymm
    {a b : Link}
    (hab : a.outranks b) :
    ¬b.outranks a := by
  intro hba
  exact outranks_irrefl a (outranks_trans hab hba)

end Link

------------------------------------------------------------
-- The Best Entry
------------------------------------------------------------

/-
  What the best header of a list of entries is: none if
  everything is ruled out, else one that nothing beats.
-/
def IsBest
    (entries : List BlockIndexEntry) :
    Option BlockIndexEntry → Prop
  | none =>
      ∀ entry ∈ entries, entry.isEligible = false
  | some best =>
      best ∈ entries ∧
        best.isEligible = true ∧
        ∀ entry ∈ entries,
          isBetterTip entry best = false

theorem isBetterTip_of_not_better
    {a b d : BlockIndexEntry}
    (hBetter : isBetterTip a b = true)
    (hNot : isBetterTip d b = false)
    (hEligible : b.isEligible = true) :
    isBetterTip d a = false := by
  rw [← Bool.not_eq_true, isBetterTip_iff] at hNot ⊢
  rw [isBetterTip_iff] at hBetter
  rintro ⟨hd, hda⟩
  apply hNot
  refine ⟨hd, fun _ => ?_⟩
  exact Link.outranks_trans (hda hBetter.1)
    (hBetter.2 hEligible)

/- Adding one candidate to a list whose best is known. -/
theorem IsBest.cons
    {entries : List BlockIndexEntry}
    {best : Option BlockIndexEntry}
    (hBest : IsBest entries best)
    (candidate : BlockIndexEntry) :
    IsBest (candidate :: entries)
      (challenge best candidate) := by
  have hSelf :
      isBetterTip candidate candidate = false := by
    rw [← Bool.not_eq_true, isBetterTip_iff]
    rintro ⟨hEligible, hOutranks⟩
    exact Link.outranks_irrefl _ (hOutranks hEligible)
  have hIneligible :
      ∀ other, candidate.isEligible = false →
        isBetterTip candidate other = false := by
    intro other hNot
    simp [isBetterTip, hNot]
  unfold challenge
  cases hEligible : candidate.isEligible with
  | false =>
      cases best with
      | none =>
          simpa [IsBest, hEligible] using hBest
      | some incumbent =>
          rcases hBest with ⟨hMem, hOk, hAll⟩
          refine ⟨List.mem_cons_of_mem _ hMem, hOk, ?_⟩
          intro entry hEntry
          rcases List.mem_cons.mp hEntry with rfl | hEntry
          · exact hIneligible _ hEligible
          · exact hAll entry hEntry
  | true =>
      cases best with
      | none =>
          refine ⟨List.mem_cons_self .., hEligible, ?_⟩
          intro entry hEntry
          rcases List.mem_cons.mp hEntry with rfl | hEntry
          · exact hSelf
          · simp [isBetterTip, hBest entry hEntry]
      | some incumbent =>
          rcases hBest with ⟨hMem, hOk, hAll⟩
          cases hBetter :
              isBetterTip candidate incumbent with
          | true =>
              simp only [hBetter, Bool.not_true, if_true,
                Bool.false_eq_true, if_false]
              refine ⟨List.mem_cons_self .., hEligible, ?_⟩
              intro entry hEntry
              rcases List.mem_cons.mp hEntry with
                rfl | hEntry
              · exact hSelf
              · exact isBetterTip_of_not_better hBetter
                  (hAll entry hEntry) hOk
          | false =>
              simp only [hBetter, Bool.not_true,
                Bool.false_eq_true, if_false]
              refine ⟨List.mem_cons_of_mem _ hMem, hOk, ?_⟩
              intro entry hEntry
              rcases List.mem_cons.mp hEntry with
                rfl | hEntry
              · exact hBetter
              · exact hAll entry hEntry

theorem IsBest.perm
    {entries others : List BlockIndexEntry}
    {best : Option BlockIndexEntry}
    (hBest : IsBest entries best)
    (hSame : ∀ entry, entry ∈ others ↔ entry ∈ entries) :
    IsBest others best := by
  cases best with
  | none =>
      intro entry hEntry
      exact hBest entry ((hSame entry).mp hEntry)
  | some best =>
      rcases hBest with ⟨hMem, hOk, hAll⟩
      refine ⟨(hSame best).mpr hMem, hOk, ?_⟩
      intro entry hEntry
      exact hAll entry ((hSame entry).mp hEntry)

theorem rescanForBestHeader_isBest
    (entries : List BlockIndexEntry) :
    IsBest entries (rescanForBestHeader entries) := by
  have hFold :
      ∀ (rest seen : List BlockIndexEntry) best,
        IsBest seen best →
          IsBest (rest.reverse ++ seen)
            (rest.foldl challenge best) := by
    intro rest
    induction rest with
    | nil =>
        intro seen best hSeen
        exact hSeen
    | cons candidate rest ih =>
        intro seen best hSeen
        rw [List.foldl_cons, List.reverse_cons,
          List.append_assoc, List.singleton_append]
        exact ih _ _ (hSeen.cons candidate)
  have hAll := hFold entries [] none (by simp [IsBest])
  refine hAll.perm ?_
  intro entry
  simp

end Amarian
