import Amarian.Chain.IndexRuns
import Amarian.Chain.Invariant
import Amarian.Lib.OrderStatistic

/-
  The median time of a block is never before its parent's.

  Key theorems include:
    * `medianTimePast_toInt`
    * `TreeOk.later`
    * `medianTimePastAt_mono`
-/

------------------------------------------------------------
-- The Median Of A Window
------------------------------------------------------------

namespace Amarian

theorem map_toInt_sorted
    (values : List Int64) :
    (values.insertionSort (· ≤ ·)).map Int64.toInt =
      (values.map Int64.toInt).insertionSort (· ≤ ·) := by
  apply List.map_insertionSort
  intro value _ other _
  exact Int64.le_iff_toInt_le

/- Up to eleven timestamps are all in the window. -/
theorem medianTimePast_toInt
    {timestamps : List Int64}
    (hSome : timestamps ≠ [])
    (hFew : timestamps.length ≤ medianTimeSpan) :
    (medianTimePast timestamps).toInt =
      OrderStatistic.middle (timestamps.map Int64.toInt)
        Int64.minValue.toInt := by
  have hAll :
      timestamps.drop (timestamps.length - medianTimeSpan) =
        timestamps := by
    rw [Nat.sub_eq_zero_of_le hFew, List.drop_zero]
  have hNotEmpty : ¬timestamps.isEmpty = true := by
    rw [List.isEmpty_iff]
    exact hSome
  rw [medianTimePast, if_neg hNotEmpty]
  dsimp only
  rw [hAll, OrderStatistic.middle, ← map_toInt_sorted,
    List.length_map, List.getD_map]

/- The timestamps in the window of a block. -/
def windowOf
    (line : List Link) : List Int64 :=
  ((line.take medianTimeSpan).map
    fun link => link.header.timestamp).reverse

theorem length_windowOf
    (line : List Link) :
    (windowOf line).length =
      min medianTimeSpan line.length := by
  rw [windowOf, List.length_reverse, List.length_map,
    List.length_take]

theorem medianTimePastAt_toInt
    {line : List Link}
    (hSome : line ≠ []) :
    (medianTimePastAt line).toInt =
      OrderStatistic.middle
        ((windowOf line).map Int64.toInt)
        Int64.minValue.toInt := by
  have hLength := length_windowOf line
  have hPositive := List.length_pos_iff.mpr hSome
  have hSpan : 0 < medianTimeSpan := by
    decide
  apply medianTimePast_toInt
  · rw [← List.length_pos_iff]
    change 0 < (windowOf line).length
    omega
  · change (windowOf line).length ≤ _
    omega

/- The newest timestamp comes in, the oldest may go. -/
theorem windowOf_cons
    (link : Link)
    (line : List Link) :
    (windowOf (link :: line)).Subperm
      (link.header.timestamp :: windowOf line) := by
  have hTaken :
      ((link :: line).take medianTimeSpan).Sublist
        (link :: line.take medianTimeSpan) := by
    rw [show medianTimeSpan = 10 + 1 from rfl,
      List.take_succ_cons]
    exact ((List.take_prefix_take_left (by omega)).sublist).cons_cons
      link
  have hMapped := hTaken.map
    fun link : Link => link.header.timestamp
  rw [List.map_cons] at hMapped
  unfold windowOf
  refine (List.reverse_perm _).subperm.trans
    (hMapped.subperm.trans ?_)
  exact ((List.reverse_perm _).symm.cons _).subperm

/- A timestamp that is not before the median raises it. -/
theorem medianTimePastAt_cons
    {link : Link}
    {line : List Link}
    (hSome : line ≠ [])
    (hLater :
      medianTimePastAt line ≤ link.header.timestamp) :
    medianTimePastAt line ≤
      medianTimePastAt (link :: line) := by
  rw [Int64.le_iff_toInt_le] at hLater ⊢
  rw [medianTimePastAt_toInt (List.cons_ne_nil link line)]
  rw [medianTimePastAt_toInt hSome] at hLater ⊢
  have hPositive := List.length_pos_iff.mpr hSome
  have hSpan : 0 < medianTimeSpan := by
    decide
  refine OrderStatistic.middle_mono ?_ ?_ ?_ hLater
  · rw [← List.length_pos_iff, List.length_map,
      length_windowOf]
    omega
  · rcases windowOf_cons link line with
      ⟨values, hPerm, hSub⟩
    exact ⟨values.map Int64.toInt, hPerm.map _, hSub.map _⟩
  · rw [List.length_map, List.length_map, length_windowOf,
      length_windowOf, List.length_cons]
    omega

------------------------------------------------------------
-- Along A Chain
------------------------------------------------------------

/-
  Every header came in later than the median of its parent,
  and the parent's line has not changed since.
-/
theorem TreeOk.later
    {c : Crypto}
    {params : ChainParams}
    {tree : List Link}
    (hTree : TreeOk c params tree)
    {link : Link}
    (hLink : link ∈ tree)
    {above : Hash256}
    (hParent : link.parent = some above) :
    medianTimePastAt (ancestry tree above) <
      link.header.timestamp := by
  induction hTree with
  | genesis =>
      rw [List.mem_singleton] at hLink
      subst hLink
      cases hParent
  | @add older parent header now hOlder hFresh hIn hPrev
      hHeader hContext ih =>
      have hSkip :
          ∀ hash, (∃ other ∈ older, other.hash = hash) →
            ancestry (childLink c parent header
                older.length :: older) hash =
              ancestry older hash :=
        fun hash hFound =>
          Arrival.Grown.lineage_cons_of_mem hFresh hFound
      rcases List.mem_cons.mp hLink with rfl | hOld
      · have hAbove : parent.hash = above :=
          Option.some.inj hParent
        rw [hSkip above ⟨parent, hIn, hAbove⟩, ← hAbove,
          hPrev]
        unfold contextualCheckBlockHeader headerContextFor
          at hContext
        simp only [except_check_eq_ok, rejectIf_eq_ok]
          at hContext
        rcases hContext with ⟨-, -, -, hLater, -⟩
        rw [decide_eq_false_iff_not, Int64.not_le] at hLater
        exact hLater
      · rw [hSkip above
          (hOlder.grown.exists_parent hOld hParent)]
        exact ih hOld

theorem IndexOk.median_le
    {c : Crypto}
    {params : ChainParams}
    {index : BlockIndex}
    (hIndex : IndexOk c params index)
    {entry parent : BlockIndexEntry}
    (hBelow : index.below entry parent) :
    medianTimePastAt (index.lineage parent.hash) ≤
      medianTimePastAt (index.lineage entry.hash) := by
  rcases hBelow with ⟨hEntry, hAbove, hParent⟩
  have hLink := IndexOk.link_mem hEntry
  have hLater := hIndex.tree.later hLink hParent
  have hLine :
      index.lineage entry.hash =
        entry.toLink :: index.lineage parent.hash :=
    hIndex.tree.grown.lineage_step hLink hParent
  have hSome : index.lineage parent.hash ≠ [] := by
    rcases hIndex.tree.grown.exists_lineage_eq_cons
      (IndexOk.link_mem hAbove) with ⟨rest, hCons⟩
    exact List.ne_nil_of_mem
      (hCons.symm ▸ List.mem_cons_self)
  rw [hLine]
  exact medianTimePastAt_cons hSome (Int64.le_of_lt hLater)

/-
  After any sequence of calls, the median time past of an
  entry is not before that of its parent.
-/
theorem medianTimePastAt_mono
    (c : Crypto)
    (params : ChainParams)
    (calls : List IndexCall)
    (entry parent : BlockIndexEntry)
    (hBelow :
      (BlockIndex.after c params calls).below entry parent) :
    medianTimePastAt
        ((BlockIndex.after c params calls).lineage
          parent.hash) ≤
      medianTimePastAt
        ((BlockIndex.after c params calls).lineage
          entry.hash) :=
  ((IndexOk.forNetwork c params).foldl_call
    calls).median_le hBelow

namespace Sample

/- Genesis and one header above it. -/
theorem medianTimePastAt_first :
    let index :=
      BlockIndex.after .reference regtestParams
        [.addHeader a1.header genesisTimestamp]
    ∃ entry parent,
      index.below entry parent ∧
        medianTimePastAt (index.lineage parent.hash) ≤
          medianTimePastAt (index.lineage entry.hash) := by
  have hBelow :
      ∃ entry ∈
          (BlockIndex.after .reference regtestParams
            [.addHeader a1.header genesisTimestamp]).entries,
        ∃ parent ∈
          (BlockIndex.after .reference regtestParams
            [.addHeader a1.header genesisTimestamp]).entries,
          entry.parent = some parent.hash := by
    rw [reference_eq]
    decide +kernel
  rcases hBelow with
    ⟨entry, hEntry, parent, hAbove, hParent⟩
  exact ⟨entry, parent, ⟨hEntry, hAbove, hParent⟩,
    medianTimePastAt_mono .reference regtestParams
      [.addHeader a1.header genesisTimestamp] entry parent
      ⟨hEntry, hAbove, hParent⟩⟩

end Sample

end Amarian
