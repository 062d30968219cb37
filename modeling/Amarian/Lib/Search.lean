import Mathlib.Data.List.Nodup
import Mathlib.Data.List.Perm.Subperm
import Mathlib.Logic.Relation
import Mathlib.Tactic.Common

/-
  Breadth-first search.

  The search keeps a queue of what is still to be expanded
  and the list of everything reached.  With enough fuel it
  reaches exactly what the successors lead to.

  Key definitions include:
    * `Search.push`
    * `Search.run`
    * `Search.reach`
    * `Search.ParentsFirst`

  Key theorems include:
    * `Search.mem_reach`
    * `Search.nodup_reach`
-/

------------------------------------------------------------
-- The Search
------------------------------------------------------------

namespace Search

variable {α : Type} [DecidableEq α]

/- Queue what was not reached before. -/
def push
    (found : List α)
    (queue reached : List α) : List α × List α :=
  found.foldl
    (fun state next =>
      if next ∈ state.2 then state
      else (state.1 ++ [next], state.2 ++ [next]))
    (queue, reached)

/- Visits what is reached, in order, while fuel lasts. -/
def run
    (successors : α → List α) :
    Nat → List α → List α → List α
  | 0, _, reached => reached
  | _ + 1, [], reached => reached
  | fuel + 1, current :: queue, reached =>
      let state := push (successors current) queue reached
      run successors fuel state.1 state.2

/- Everything that `start` leads to, itself included. -/
def reach
    (successors : α → List α)
    (fuel : Nat)
    (start : α) : List α :=
  run successors fuel [start] [start]

------------------------------------------------------------
-- One Expansion
------------------------------------------------------------

/- Both lists grow by the same new elements. -/
theorem push_spec
    (found queue reached : List α)
    (hReached : reached.Nodup) :
    ∃ fresh,
      push found queue reached =
          (queue ++ fresh, reached ++ fresh) ∧
        (reached ++ fresh).Nodup ∧
        (∀ next ∈ fresh, next ∈ found) ∧
        ∀ next ∈ found, next ∈ reached ++ fresh := by
  induction found generalizing queue reached with
  | nil =>
      refine ⟨[], ?_, ?_, ?_, ?_⟩
      · simp [push]
      · simpa using hReached
      · simp
      · simp
  | cons first found ih =>
      by_cases hOld : first ∈ reached
      · rcases ih queue reached hReached with
          ⟨fresh, hPush, hNodup, hFound, hAll⟩
        refine ⟨fresh, ?_, hNodup, ?_, ?_⟩
        · rw [← hPush, push, List.foldl_cons, if_pos hOld]
          rfl
        · exact fun next hNext =>
            List.mem_cons_of_mem _ (hFound next hNext)
        · rw [List.forall_mem_cons]
          exact ⟨List.mem_append_left _ hOld, hAll⟩
      · have hMore : (reached ++ [first]).Nodup :=
          List.nodup_append.mpr ⟨hReached,
            List.nodup_singleton _, by
              rintro other hOther _ hFirst rfl
              rw [List.mem_singleton] at hFirst
              exact hOld (hFirst ▸ hOther)⟩
        rcases ih (queue ++ [first]) (reached ++ [first])
          hMore with ⟨fresh, hPush, hNodup, hFound, hAll⟩
        rw [List.append_assoc] at hNodup hAll
        refine ⟨first :: fresh, ?_, hNodup, ?_, ?_⟩
        · rw [push, List.foldl_cons, if_neg hOld]
          change push found (queue ++ [first])
            (reached ++ [first]) = _
          rw [hPush, List.append_assoc, List.append_assoc]
          rfl
        · rw [List.forall_mem_cons]
          exact ⟨List.mem_cons_self ..,
            fun next hNext =>
              List.mem_cons_of_mem _ (hFound next hNext)⟩
        · rw [List.forall_mem_cons]
          refine ⟨?_, hAll⟩
          exact List.mem_append_right _
            (List.mem_cons_self ..)

------------------------------------------------------------
-- Runs
------------------------------------------------------------

/-
  What a search maintains: the elements expanded so far come
  before the queue, and their successors were reached.
-/
structure Going
    (successors : α → List α)
    (nodes : List α)
    (start : α)
    (expanded queue reached : List α) : Prop where
  split : reached = expanded ++ queue
  nodup : reached.Nodup
  from_start : start ∈ reached
  inside : ∀ node ∈ reached, node ∈ nodes
  closed :
    ∀ node ∈ expanded, ∀ next ∈ successors node,
      next ∈ reached
  sound :
    ∀ node ∈ reached,
      Relation.ReflTransGen
        (fun node next => next ∈ successors node)
        start node

variable {successors : α → List α} {nodes : List α}
variable {start : α}

theorem Going.step
    {expanded queue reached : List α}
    {current : α}
    (hNodes :
      ∀ node, ∀ next ∈ successors node, next ∈ nodes)
    (hGoing :
      Going successors nodes start expanded
        (current :: queue) reached) :
    Going successors nodes start (expanded ++ [current])
      (push (successors current) queue reached).1
      (push (successors current) queue reached).2 := by
  rcases push_spec (successors current) queue reached
    hGoing.nodup with ⟨fresh, hPush, hNodup, hFound, hAll⟩
  have hCurrent : current ∈ reached := by
    rw [hGoing.split]
    exact List.mem_append_right _ (List.mem_cons_self ..)
  rw [hPush]
  refine ⟨?_, hNodup, ?_, ?_, ?_, ?_⟩
  · rw [hGoing.split]
    simp
  · exact List.mem_append_left _ hGoing.from_start
  · intro node hNode
    rcases List.mem_append.mp hNode with hOld | hNew
    · exact hGoing.inside node hOld
    · exact hNodes current node (hFound node hNew)
  · intro node hNode next hNext
    rcases List.mem_append.mp hNode with hOld | hHere
    · exact List.mem_append_left _
        (hGoing.closed node hOld next hNext)
    · rw [List.mem_singleton] at hHere
      rw [hHere] at hNext
      exact hAll next hNext
  · intro node hNode
    rcases List.mem_append.mp hNode with hOld | hNew
    · exact hGoing.sound node hOld
    · exact (hGoing.sound current hCurrent).tail
        (hFound node hNew)

/- Once the queue is empty, everything was reached. -/
omit [DecidableEq α] in
theorem Going.complete
    {expanded reached : List α}
    (hGoing :
      Going successors nodes start expanded [] reached)
    {node : α}
    (hNode :
      Relation.ReflTransGen
        (fun node next => next ∈ successors node)
        start node) :
    node ∈ reached := by
  induction hNode with
  | refl => exact hGoing.from_start
  | tail hPath hStep ih =>
      apply hGoing.closed _ _ _ hStep
      have hSplit := hGoing.split
      rw [List.append_nil] at hSplit
      rw [← hSplit]
      exact ih

theorem Going.run
    (hNodes :
      ∀ node, ∀ next ∈ successors node, next ∈ nodes)
    {fuel : Nat}
    {expanded queue reached : List α}
    (hGoing :
      Going successors nodes start expanded queue reached)
    (hFuel : nodes.length ≤ expanded.length + fuel) :
    ∃ all,
      Going successors nodes start all []
        (run successors fuel queue reached) := by
  induction fuel generalizing expanded queue reached with
  | zero =>
      have hFull : reached.length ≤ nodes.length :=
        (hGoing.nodup.subperm hGoing.inside).length_le
      have hSplit := congrArg List.length hGoing.split
      rw [List.length_append] at hSplit
      have hEmpty : queue = [] :=
        List.length_eq_zero_iff.mp (by omega)
      subst hEmpty
      exact ⟨expanded, hGoing⟩
  | succ fuel ih =>
      cases queue with
      | nil => exact ⟨expanded, hGoing⟩
      | cons current queue =>
          apply ih (hGoing.step hNodes)
          rw [List.length_append, List.length_singleton]
          omega

theorem going_reach
    (hNodes :
      ∀ node, ∀ next ∈ successors node, next ∈ nodes)
    (hStart : start ∈ nodes)
    {fuel : Nat}
    (hFuel : nodes.length ≤ fuel) :
    ∃ all,
      Going successors nodes start all []
        (reach successors fuel start) := by
  have hGoing :
      Going successors nodes start [] [start] [start] :=
    { split := rfl
      nodup := List.nodup_singleton _
      from_start := List.mem_singleton_self _
      inside := by simpa using hStart
      closed := by simp
      sound := by
        intro node hNode
        rw [List.mem_singleton.mp hNode] }
  exact hGoing.run hNodes (by simpa using hFuel)

theorem mem_reach
    (hNodes :
      ∀ node, ∀ next ∈ successors node, next ∈ nodes)
    (hStart : start ∈ nodes)
    {fuel : Nat}
    (hFuel : nodes.length ≤ fuel)
    {node : α} :
    node ∈ reach successors fuel start ↔
      Relation.ReflTransGen
        (fun node next => next ∈ successors node)
        start node := by
  rcases going_reach hNodes hStart hFuel with ⟨all, hDone⟩
  exact ⟨hDone.sound node, hDone.complete⟩

theorem nodup_reach
    (hNodes :
      ∀ node, ∀ next ∈ successors node, next ∈ nodes)
    (hStart : start ∈ nodes)
    {fuel : Nat}
    (hFuel : nodes.length ≤ fuel) :
    (reach successors fuel start).Nodup := by
  rcases going_reach hNodes hStart hFuel with ⟨all, hDone⟩
  exact hDone.nodup

------------------------------------------------------------
-- Orders Of A Graph
------------------------------------------------------------

omit [DecidableEq α] in
/- A place in a list with one more element at its end. -/
theorem concat_split
    {before after ids : List α}
    {id last : α}
    (hSplit : ids ++ [last] = before ++ id :: after) :
    (ids = before ∧ last = id) ∨
      ∃ rest, ids = before ++ id :: rest := by
  rcases List.eq_nil_or_concat after with
    rfl | ⟨rest, other, rfl⟩
  · rcases List.append_inj' hSplit rfl with ⟨hSame, hLast⟩
    exact .inl ⟨hSame, List.singleton_inj.mp hLast⟩
  · have hLong :
        ids ++ [last] = (before ++ id :: rest) ++ [other] := by
      rw [hSplit, List.concat_eq_append]
      simp
    exact .inr ⟨rest, (List.append_inj' hLong rfl).1⟩

/- Every element stands behind all of its parents. -/
def ParentsFirst
    (parents : α → List α)
    (ids : List α) : Prop :=
  ∀ before id after, ids = before ++ id :: after →
    ∀ parent ∈ parents id, parent ∈ before

omit [DecidableEq α] in
theorem ParentsFirst.nil
    (parents : α → List α) :
    ParentsFirst parents [] := by
  intro before id after hSplit
  cases before <;> cases hSplit

omit [DecidableEq α] in
theorem ParentsFirst.concat
    {parents : α → List α}
    {ids : List α}
    {id : α}
    (hFirst : ParentsFirst parents ids)
    (hReady : ∀ parent ∈ parents id, parent ∈ ids) :
    ParentsFirst parents (ids ++ [id]) := by
  intro before other after hSplit
  rcases concat_split hSplit with
    ⟨rfl, rfl⟩ | ⟨rest, hRest⟩
  · exact hReady
  · exact hFirst before other rest hRest

end Search
