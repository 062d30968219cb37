import Mathlib.Data.List.Basic
import Mathlib.Tactic.Common

/-
  Lists whose nodes carry their positions as numbers, and
  what becomes of the numbers when some nodes are dropped.

  As in a tree that grows by arrival, the newest node is
  listed first and the oldest one has number zero.

  Key definitions include:
    * `NodeNumbers`
    * `NodeNumbers.Counted`
    * `NodeNumbers.recount`

  Key theorems include:
    * `NodeNumbers.recount_eq_self`
    * `NodeNumbers.number_lt_iff`
-/

/- A number in every node, and how to set it. -/
structure NodeNumbers (ν κ : Type) where
  key : ν → κ
  number : ν → Nat
  set : ν → Nat → ν
  number_set : ∀ node k, number (set node k) = k
  set_number : ∀ node, set node (number node) = node
  key_set : ∀ node k, key (set node k) = key node

namespace NodeNumbers

variable {ν κ : Type} (numbering : NodeNumbers ν κ)

/- Every node's number is the count of those before it. -/
def Counted : List ν → Prop
  | [] => True
  | node :: older =>
      numbering.number node = older.length ∧ Counted older

/- The nodes with their numbers set anew. -/
def recount : List ν → List ν
  | [] => []
  | node :: older =>
      numbering.set node older.length :: recount older

variable {numbering} {nodes : List ν}

@[simp] theorem length_recount
    (nodes : List ν) :
    (numbering.recount nodes).length = nodes.length := by
  induction nodes with
  | nil => rfl
  | cons node older ih => simp [recount, ih]

/- Where nothing was dropped the numbers stay. -/
theorem recount_eq_self
    (hCounted : numbering.Counted nodes) :
    numbering.recount nodes = nodes := by
  induction nodes with
  | nil => rfl
  | cons node older ih =>
      rcases hCounted with ⟨hNumber, hOlder⟩
      rw [recount, ← hNumber, numbering.set_number,
        ih hOlder]

theorem mem_recount
    {twin : ν}
    (hTwin : twin ∈ numbering.recount nodes) :
    ∃ node ∈ nodes,
      ∃ k < nodes.length, twin = numbering.set node k := by
  induction nodes with
  | nil => simp [recount] at hTwin
  | cons node older ih =>
      rcases List.mem_cons.mp hTwin with rfl | hOld
      · exact ⟨node, List.mem_cons_self .., older.length,
          by simp, rfl⟩
      · rcases ih hOld with ⟨other, hOther, k, hLt, hSet⟩
        exact ⟨other, List.mem_cons_of_mem _ hOther, k,
          by simp; omega, hSet⟩

theorem exists_mem_recount
    {node : ν}
    (hNode : node ∈ nodes) :
    ∃ k, numbering.set node k ∈ numbering.recount nodes := by
  induction nodes with
  | nil => simp at hNode
  | cons newest older ih =>
      rcases List.mem_cons.mp hNode with rfl | hOld
      · exact ⟨older.length, List.mem_cons_self ..⟩
      · rcases ih hOld with ⟨k, hTwin⟩
        exact ⟨k, List.mem_cons_of_mem _ hTwin⟩

theorem number_lt_length
    {twin : ν}
    (hTwin : twin ∈ numbering.recount nodes) :
    numbering.number twin < nodes.length := by
  rcases mem_recount hTwin with ⟨node, -, k, hLt, rfl⟩
  rw [numbering.number_set]
  exact hLt

theorem Counted.number_lt
    (hCounted : numbering.Counted nodes)
    {node : ν}
    (hNode : node ∈ nodes) :
    numbering.number node < nodes.length := by
  rw [← recount_eq_self hCounted] at hNode
  exact number_lt_length hNode

/- The newer of two nodes has the larger number. -/
theorem Counted.pairwise
    (hCounted : numbering.Counted nodes) :
    nodes.Pairwise fun newer older =>
      numbering.number older < numbering.number newer := by
  induction nodes with
  | nil => exact List.Pairwise.nil
  | cons node older ih =>
      rcases hCounted with ⟨hNumber, hOlder⟩
      refine List.pairwise_cons.mpr ⟨?_, ih hOlder⟩
      intro other hOther
      rw [hNumber]
      exact hOlder.number_lt hOther

/- Counting anew keeps the order of the nodes. -/
theorem number_lt_iff
    (hOrder :
      nodes.Pairwise fun newer older =>
        numbering.number older < numbering.number newer)
    (hKeys :
      ∀ first ∈ nodes, ∀ second ∈ nodes,
        numbering.key first = numbering.key second →
          first = second)
    {first second firstTwin secondTwin : ν}
    (hFirst : first ∈ nodes)
    (hSecond : second ∈ nodes)
    (hFirstTwin : firstTwin ∈ numbering.recount nodes)
    (hSecondTwin : secondTwin ∈ numbering.recount nodes)
    (hFirstKey :
      numbering.key firstTwin = numbering.key first)
    (hSecondKey :
      numbering.key secondTwin = numbering.key second) :
    numbering.number firstTwin <
        numbering.number secondTwin ↔
      numbering.number first < numbering.number second := by
  induction nodes with
  | nil => simp at hFirst
  | cons newest older ih =>
      rcases List.pairwise_cons.mp hOrder with
        ⟨hNewest, hOlder⟩
      -- The twin of an older node is not the first one.
      have hSplit : ∀ node ∈ newest :: older,
          ∀ twin ∈ numbering.recount (newest :: older),
            numbering.key twin = numbering.key node →
              node = newest ∧
                  numbering.number twin = older.length ∨
                node ∈ older ∧
                  twin ∈ numbering.recount older := by
        intro node hNode twin hTwin hKey
        rcases List.mem_cons.mp hTwin with rfl | hOldTwin
        · left
          rw [numbering.key_set] at hKey
          exact ⟨(hKeys newest (List.mem_cons_self ..) node
            hNode hKey).symm, numbering.number_set _ _⟩
        · rcases mem_recount hOldTwin with
            ⟨other, hOther, k, -, rfl⟩
          rw [numbering.key_set] at hKey
          have hSame := hKeys other
            (List.mem_cons_of_mem _ hOther) node hNode hKey
          exact .inr ⟨hSame ▸ hOther, hOldTwin⟩
      rcases hSplit first hFirst firstTwin hFirstTwin
          hFirstKey with
        ⟨rfl, hFirstNumber⟩ | ⟨hFirstOld, hFirstOldTwin⟩ <;>
      rcases hSplit second hSecond secondTwin hSecondTwin
          hSecondKey with
        ⟨hSame, hSecondNumber⟩ | ⟨hSecondOld, hSecondOldTwin⟩
      · rw [hFirstNumber, hSecondNumber, hSame]
        simp
      · have hTwinLt := number_lt_length hSecondOldTwin
        have hLt := hNewest second hSecondOld
        omega
      · subst hSame
        have hTwinLt := number_lt_length hFirstOldTwin
        have hLt := hNewest first hFirstOld
        omega
      · refine ih hOlder ?_ hFirstOld hSecondOld
          hFirstOldTwin hSecondOldTwin
        intro a hA b hB
        exact hKeys a (List.mem_cons_of_mem _ hA) b
          (List.mem_cons_of_mem _ hB)

end NodeNumbers
