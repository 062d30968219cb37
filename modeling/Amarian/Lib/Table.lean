import Mathlib.Algebra.BigOperators.Group.List.Basic
import Mathlib.Algebra.Order.BigOperators.Group.List
import Mathlib.Algebra.Ring.Int.Defs
import Mathlib.Data.Int.Basic
import Mathlib.Data.List.AList
import Mathlib.Tactic.Common

/-
  Tables: finite maps whose values are changed in place.

  Key definitions include:
    * `Table`
    * `Table.modify`
    * `Table.modifyAll`
    * `Table.total`

  Key theorems include:
    * `Table.lookup_modifyAll`
    * `Table.total_insert`
    * `Table.total_erase`
-/

------------------------------------------------------------
-- Changes In Place
------------------------------------------------------------

/- A finite map without an order of its own. -/
abbrev Table
    (κ ν : Type) : Type :=
  AList (fun _ : κ => ν)

namespace Table

variable {κ ν : Type} [DecidableEq κ]

/- Changes one value, if it is there. -/
def modify
    (change : ν → ν)
    (table : Table κ ν)
    (key : κ) : Table κ ν :=
  match table.lookup key with
  | none => table
  | some value => table.insert key (change value)

/- Changes the values of some keys in turn. -/
def modifyAll
    (change : ν → ν)
    (keys : List κ)
    (table : Table κ ν) : Table κ ν :=
  keys.foldl (modify change) table

@[simp] theorem lookup_modify
    (change : ν → ν)
    (table : Table κ ν)
    (key other : κ) :
    (table.modify change key).lookup other =
      if other = key then (table.lookup key).map change
      else table.lookup other := by
  unfold modify
  cases hFound : table.lookup key with
  | none =>
      by_cases hSame : other = key
      · rw [if_pos hSame, hSame, hFound]
        rfl
      · rw [if_neg hSame]
  | some value =>
      by_cases hSame : other = key
      · subst hSame
        simp
      · rw [if_neg hSame, AList.lookup_insert_ne hSame]

/- Changing a value twice is no more than changing it once. -/
theorem lookup_modifyAll
    {change : ν → ν}
    (hTwice : ∀ value, change (change value) = change value)
    (keys : List κ)
    (table : Table κ ν)
    (other : κ) :
    (table.modifyAll change keys).lookup other =
      if other ∈ keys then (table.lookup other).map change
      else table.lookup other := by
  induction keys generalizing table with
  | nil => simp [modifyAll]
  | cons key keys ih =>
      rw [modifyAll, List.foldl_cons]
      change ((modify change table key).modifyAll change
        keys).lookup other = _
      rw [ih, lookup_modify]
      by_cases hSame : other = key
      · subst hSame
        rw [if_pos rfl, if_pos (List.mem_cons_self ..)]
        split
        · rw [Option.map_map]
          congr 1
          funext value
          exact hTwice value
        · rfl
      · rw [if_neg hSame]
        simp [hSame]

------------------------------------------------------------
-- Sums Over The Values
------------------------------------------------------------

/- The sum of an amount over all values. -/
def total
    (amount : ν → Int)
    (table : Table κ ν) : Int :=
  (table.entries.map fun entry => amount entry.2).sum

variable {amount : ν → Int} {table : Table κ ν} {key : κ}

theorem total_nonneg
    (hAmount :
      ∀ key value, table.lookup key = some value →
        0 ≤ amount value) :
    0 ≤ total amount table := by
  apply List.sum_nonneg
  intro sum hSum
  rcases List.mem_map.mp hSum with
    ⟨⟨key, value⟩, hMember, rfl⟩
  exact hAmount key value (AList.mem_lookup_iff.mpr hMember)

/- The sum does not depend on how the table is laid out. -/
theorem total_congr
    {other : Table κ ν}
    (hSame : ∀ key, other.lookup key = table.lookup key) :
    total amount other = total amount table := by
  have hPerm : other.entries.Perm table.entries := by
    apply List.lookup_ext other.nodupKeys table.nodupKeys
    intro key value
    have hHere : other.entries.dlookup key =
        table.entries.dlookup key := hSame key
    rw [hHere]
  unfold total
  exact (hPerm.map _).sum_eq

theorem sum_kerase
    {entries : List (Sigma fun _ : κ => ν)}
    {value : ν}
    (hFound : entries.dlookup key = some value) :
    (entries.map fun entry => amount entry.2).sum =
      amount value +
        ((entries.kerase key).map
          fun entry => amount entry.2).sum := by
  induction entries with
  | nil => cases hFound
  | cons entry entries ih =>
      rcases entry with ⟨here, held⟩
      by_cases hSame : here = key
      · subst hSame
        rw [List.dlookup_cons_eq, Option.some_inj] at hFound
        subst hFound
        have hErased :
            List.kerase here (⟨here, held⟩ :: entries) =
              entries :=
          List.kerase_cons_eq rfl
        rw [hErased, List.map_cons, List.sum_cons]
      · rw [List.dlookup_cons_ne _ _ (Ne.symm hSame)] at hFound
        rw [List.kerase_cons_ne (Ne.symm hSame), List.map_cons,
          List.map_cons, List.sum_cons, List.sum_cons,
          ih hFound]
        omega

theorem total_erase
    {value : ν}
    (hFound : table.lookup key = some value) :
    total amount table =
      amount value + total amount (table.erase key) :=
  sum_kerase hFound

theorem total_insert
    {value : ν}
    (hFresh : table.lookup key = none) :
    total amount (table.insert key value) =
      amount value + total amount table := by
  rw [AList.lookup_eq_none] at hFresh
  rw [total, AList.entries_insert_of_notMem hFresh,
    List.map_cons, List.sum_cons, total]

theorem total_modify
    {change : ν → ν}
    (hSame : ∀ value, amount (change value) = amount value)
    (table : Table κ ν)
    (key : κ) :
    total amount (table.modify change key) =
      total amount table := by
  unfold modify
  cases hFound : table.lookup key with
  | none => rfl
  | some value =>
      rw [total_erase hFound, total, AList.entries_insert,
        List.map_cons, List.sum_cons, hSame]
      rfl

theorem total_modifyAll
    {change : ν → ν}
    (hSame : ∀ value, amount (change value) = amount value)
    (keys : List κ)
    (table : Table κ ν) :
    total amount (table.modifyAll change keys) =
      total amount table := by
  induction keys generalizing table with
  | nil => rfl
  | cons key keys ih =>
      rw [modifyAll, List.foldl_cons]
      change total amount
        ((modify change table key).modifyAll change keys) = _
      rw [ih, total_modify hSame]

end Table
