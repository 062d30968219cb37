import Mathlib.Data.List.Basic
import Mathlib.Tactic.Common

/-
  Input that arrives in pieces.

  A search for a pattern, and a reader that starts from
  scratch with every piece until it has an answer.

  Key definitions include:
    * `Incremental.find`
    * `Incremental.listen`
    * `Incremental.Settled`

  Key theorems include:
    * `Incremental.find_append`
    * `Incremental.find_take`
    * `Incremental.listen_settled`
-/

------------------------------------------------------------
-- Patterns
------------------------------------------------------------

namespace Incremental

section Patterns

variable {τ : Type} [DecidableEq τ]

/- Where a pattern first occurs; it is not empty. -/
def find
    (pattern : List τ) : List τ → Option Nat
  | [] => none
  | head :: rest =>
      if pattern <+: head :: rest then
        some 0
      else
        (find pattern rest).map (· + 1)

variable {pattern input rest : List τ} {place : Nat}

theorem find_fits
    (hFind : find pattern input = some place) :
    place + pattern.length ≤ input.length := by
  induction input generalizing place with
  | nil => cases hFind
  | cons head input ih =>
      rw [find] at hFind
      split at hFind
      · rename_i hHere
        cases hFind
        rw [Nat.zero_add]
        exact hHere.length_le
      · rcases Option.map_eq_some_iff.mp hFind with
          ⟨before, hBefore, rfl⟩
        have hFits := ih hBefore
        rw [List.length_cons]
        omega

/- What was found stays found, in the same place. -/
theorem find_append
    (hFind : find pattern input = some place)
    (rest : List τ) :
    find pattern (input ++ rest) = some place := by
  induction input generalizing place with
  | nil => cases hFind
  | cons head input ih =>
      have hFits := find_fits hFind
      rw [find] at hFind
      rw [List.cons_append, find]
      split at hFind
      · rename_i hHere
        cases hFind
        exact if_pos
          (hHere.trans (List.prefix_append (head :: input) _))
      · rename_i hNot
        rcases Option.map_eq_some_iff.mp hFind with
          ⟨before, hBefore, rfl⟩
        have hStill : ¬pattern <+: head :: (input ++ rest) := by
          intro hHere
          refine hNot (List.prefix_of_prefix_length_le hHere
            (List.prefix_append (head :: input) rest) ?_)
          omega
        rw [if_neg hStill, ih hBefore]
        rfl

/- A front that has all of it is enough to find it in. -/
theorem find_prefix
    (hPattern : pattern ≠ [])
    (hFind : find pattern input = some place)
    {front : List τ}
    (hFront : front <+: input)
    (hSize : place + pattern.length ≤ front.length) :
    find pattern front = some place := by
  induction input generalizing front place with
  | nil => cases hFind
  | cons head input ih =>
      rcases front with _ | ⟨first, front⟩
      · have hSome := List.length_pos_iff.mpr hPattern
        rw [List.length_nil] at hSize
        omega
      rcases List.cons_prefix_cons.mp hFront with
        ⟨rfl, hRest⟩
      rw [find] at hFind ⊢
      split at hFind
      · rename_i hHere
        cases hFind
        rw [Nat.zero_add] at hSize
        exact if_pos (List.prefix_of_prefix_length_le hHere
          hFront hSize)
      · rename_i hNot
        rcases Option.map_eq_some_iff.mp hFind with
          ⟨before, hBefore, rfl⟩
        rw [List.length_cons] at hSize
        rw [if_neg fun hHere => hNot (hHere.trans hFront),
          ih hBefore hRest (by omega)]
        rfl

/- It is not found in less than the whole of it. -/
theorem find_take
    (hFind : find pattern input = some place)
    {size : Nat}
    (hSize : size < place + pattern.length) :
    find pattern (input.take size) = none := by
  rcases hShort : find pattern (input.take size) with _ | other
  · rfl
  have hSame := find_append hShort (input.drop size)
  rw [List.take_append_drop, hFind] at hSame
  cases hSame
  have hFits := find_fits hShort
  rw [List.length_take] at hFits
  omega

/- A search passes over what the pattern cannot start in. -/
theorem find_skip
    {first : τ}
    (hFirst : first ∉ input)
    (rest : List τ) :
    find (first :: pattern) (input ++ rest) =
      (find (first :: pattern) rest).map
        (input.length + ·) := by
  induction input with
  | nil =>
      rw [List.nil_append, List.length_nil]
      simp only [Nat.zero_add, Option.map_id']
  | cons head input ih =>
      rw [List.mem_cons, not_or] at hFirst
      have hNot :
          ¬first :: pattern <+: head :: (input ++ rest) := by
        intro hHere
        exact hFirst.1 (List.cons_prefix_cons.mp hHere).1
      rw [List.cons_append, find, if_neg hNot, ih hFirst.2,
        Option.map_map, List.length_cons]
      refine congrArg (Option.map · _) (funext fun place => ?_)
      exact Nat.add_right_comm ..

end Patterns

------------------------------------------------------------
-- Readers
------------------------------------------------------------

section Readers

variable {τ α : Type} {more : α → Bool}
variable {read : List τ → α}

/- Read all there is with every piece, until it is enough. -/
def listen
    (more : α → Bool)
    (read : List τ → α) :
    List τ → List (List τ) → α
  | buffer, [] => read buffer
  | buffer, chunk :: chunks =>
      let answer := read (buffer ++ chunk)
      if more answer then
        listen more read (buffer ++ chunk) chunks
      else
        answer

/- That no front of the input is answered otherwise. -/
def Settled
    (more : α → Bool)
    (read : List τ → α)
    (input : List τ) : Prop :=
  ∀ front,
    front <+: input → more (read front) = false →
      read front = read input

/- By induction on the pieces. -/
theorem listen_settled
    {buffer : List τ}
    {chunks : List (List τ)}
    (hSettled :
      Settled more read (buffer ++ chunks.flatten)) :
    listen more read buffer chunks =
      read (buffer ++ chunks.flatten) := by
  induction chunks generalizing buffer with
  | nil =>
      rw [listen, List.flatten_nil, List.append_nil]
  | cons chunk chunks ih =>
      rw [List.flatten_cons, ← List.append_assoc]
        at hSettled ⊢
      rw [listen]
      split
      · exact ih hSettled
      · rename_i hDone
        exact hSettled _ (List.prefix_append _ _)
          (Bool.not_eq_true _ ▸ hDone)

end Readers

end Incremental
