import Mathlib.Algebra.BigOperators.Group.Finset.Basic
import Mathlib.Algebra.Order.BigOperators.Group.Finset
import Mathlib.Logic.Relation
import Mathlib.Order.WellFounded
import Mathlib.Data.Fintype.EquivFin

/-
  Filling a limited space with items that need others.

  The items take their turns. Each comes in together with all
  it needs that is still missing, if there is room for that.

  Key definitions include:
    * `Packing.offer`
    * `Packing.pack`

  Key theorems include:
    * `Packing.load_pack_le`
    * `Packing.crowded_of_notMem`
    * `Packing.exists_first`
-/

------------------------------------------------------------
-- Packing
------------------------------------------------------------

namespace Packing

variable {α : Type*}

section Greedy

variable [DecidableEq α]
variable (needs : α → Finset α) (weight : α → ℕ) (limit : ℕ)

/- What the items weigh together. -/
def load
    (items : Finset α) : ℕ :=
  ∑ item ∈ items, weight item

/- An item is among those that it needs. -/
def offer
    (packed : Finset α)
    (item : α) : Finset α :=
  if item ∈ packed then
    packed
  else if load weight packed +
      load weight (needs item \ packed) ≤ limit then
    packed ∪ needs item
  else
    packed

/- Offers the items one after the other. -/
def pack
    (turns : List α) : Finset α :=
  turns.foldl (offer needs weight limit) ∅

variable {needs weight limit}

theorem load_union
    (packed items : Finset α) :
    load weight (packed ∪ items) =
      load weight packed + load weight (items \ packed) := by
  unfold load
  rw [← Finset.union_sdiff_self_eq_union,
    Finset.sum_union Finset.disjoint_sdiff]

theorem subset_offer
    (packed : Finset α)
    (item : α) :
    packed ⊆ offer needs weight limit packed item := by
  unfold offer
  split
  · exact Finset.Subset.refl packed
  split
  · exact Finset.subset_union_left
  · exact Finset.Subset.refl packed

theorem subset_foldl_offer
    (turns : List α)
    (packed : Finset α) :
    packed ⊆
      turns.foldl (offer needs weight limit) packed := by
  induction turns generalizing packed with
  | nil => exact Finset.Subset.refl packed
  | cons item turns hRest =>
      exact (subset_offer packed item).trans (hRest _)

theorem load_offer_le
    {packed : Finset α}
    (hLoad : load weight packed ≤ limit)
    (item : α) :
    load weight (offer needs weight limit packed item) ≤
      limit := by
  unfold offer
  split
  · exact hLoad
  split
  · rename_i hRoom
    rw [load_union]
    exact hRoom
  · exact hLoad

theorem load_pack_le
    (turns : List α) :
    load weight (pack needs weight limit turns) ≤ limit := by
  have hAll :
      ∀ (turns : List α) (packed : Finset α),
        load weight packed ≤ limit →
          load weight
              (turns.foldl (offer needs weight limit)
                packed) ≤
            limit := by
    intro turns
    induction turns with
    | nil => exact fun _ hLoad => hLoad
    | cons item turns hRest =>
        intro packed hLoad
        exact hRest _ (load_offer_le hLoad item)
  exact hAll turns ∅ (Nat.zero_le limit)

/- Who is left out found too little room at its turn. -/
theorem crowded_of_notMem
    {before after : List α}
    {item : α}
    (hSelf : item ∈ needs item)
    (hOut :
      item ∉ pack needs weight limit
        (before ++ item :: after)) :
    limit <
      load weight (pack needs weight limit before) +
        load weight
          (needs item \ pack needs weight limit before) := by
  have hSplit :
      pack needs weight limit (before ++ item :: after) =
        after.foldl (offer needs weight limit)
          (offer needs weight limit
            (pack needs weight limit before) item) := by
    unfold pack
    rw [List.foldl_append, List.foldl_cons]
  have hHere :
      item ∉ offer needs weight limit
        (pack needs weight limit before) item := by
    intro hIn
    rw [hSplit] at hOut
    exact hOut (subset_foldl_offer after _ hIn)
  by_contra hRoom
  unfold offer at hHere
  split at hHere
  · rename_i hIn
    exact hHere hIn
  · rw [if_pos (Nat.le_of_not_lt hRoom)] at hHere
    exact hHere (Finset.mem_union_right _ hSelf)

end Greedy

------------------------------------------------------------
-- Who Can Come First
------------------------------------------------------------

/- Some item of a list needs none of the others directly. -/
theorem exists_first
    {below : α → α → Prop}
    (hAcyclic : ∀ item, ¬Relation.TransGen below item item)
    {items : List α}
    (hSome : items ≠ []) :
    ∃ item ∈ items, ∀ other ∈ items, ¬below item other := by
  let under (other item : {item // item ∈ items}) : Prop :=
    Relation.TransGen below item.1 other.1
  have hFinite : Finite {item // item ∈ items} := by
    classical
    exact Finite.of_fintype _
  have hTrans : IsTrans {item // item ∈ items} under :=
    ⟨fun _ _ _ hLow hHigh => hHigh.trans hLow⟩
  have hIrrefl : Std.Irrefl under :=
    ⟨fun item => hAcyclic item.1⟩
  have hFounded : WellFounded under :=
    Finite.wellFounded_of_trans_of_irrefl under
  rcases List.exists_mem_of_ne_nil items hSome with
    ⟨start, hStart⟩
  rcases hFounded.has_min Set.univ
      ⟨⟨start, hStart⟩, Set.mem_univ _⟩ with
    ⟨least, -, hLeast⟩
  refine ⟨least.1, least.2, ?_⟩
  intro other hOther hBelow
  exact hLeast ⟨other, hOther⟩ (Set.mem_univ _)
    (.single hBelow)

end Packing
