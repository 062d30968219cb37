import Mathlib.Data.List.AList
import Mathlib.Logic.Function.Basic
import Mathlib.Tactic.Common

/-
  Overlays: change sets over a partial map.

  An overlay records, for the keys that differ from a base
  map, the value they have now, with `none` for a key that
  is gone.  What is looked up is the overlay first and the
  base for the keys it does not mention.

  Key definitions include:
    * `Overlay`
    * `Overlay.apply`

  Key theorems include:
    * `Overlay.apply_insert`
    * `Overlay.apply_erase`
    * `Overlay.apply_eq_foldl`
-/

/- A change set over a map from `κ` to `ν`. -/
abbrev Overlay
    (κ ν : Type) : Type :=
  AList (fun _ : κ => Option ν)

namespace Overlay

variable {κ ν : Type} [DecidableEq κ]

/- The base map with the changes of the overlay in it. -/
def apply
    (overlay : Overlay κ ν)
    (base : κ → Option ν) : κ → Option ν :=
  fun key => (overlay.lookup key).getD (base key)

@[simp] theorem apply_empty
    (base : κ → Option ν) :
    apply (∅ : Overlay κ ν) base = base := by
  funext key
  simp [apply]

theorem apply_insert
    (overlay : Overlay κ ν)
    (base : κ → Option ν)
    (key : κ)
    (value : Option ν) :
    apply (overlay.insert key value) base =
      Function.update (apply overlay base) key value := by
  funext other
  by_cases hKey : other = key
  · subst hKey
    simp [apply]
  · simp [apply, hKey, AList.lookup_insert_ne hKey]

/-
  Forgetting a key is the same as recording that it is gone
  if the base does not have it.
-/
theorem apply_erase
    (overlay : Overlay κ ν)
    (base : κ → Option ν)
    (key : κ)
    (hAbsent : base key = none) :
    apply (overlay.erase key) base =
      Function.update (apply overlay base) key none := by
  funext other
  by_cases hKey : other = key
  · subst hKey
    simp [apply, hAbsent]
  · simp [apply, hKey, AList.lookup_erase_ne hKey]

------------------------------------------------------------
-- Flushing
------------------------------------------------------------

/- Writes to other keys leave a key as it was. -/
theorem foldl_update_of_notMem
    (key : κ)
    (writes : List (Sigma fun _ : κ => Option ν))
    (base : κ → Option ν)
    (hKey : key ∉ writes.keys) :
    writes.foldl
        (fun m write => Function.update m write.1 write.2)
        base key =
      base key := by
  induction writes generalizing base with
  | nil => rfl
  | cons write writes ih =>
      rw [List.keys_cons, List.mem_cons, not_or] at hKey
      rw [List.foldl_cons, ih _ hKey.2]
      exact Function.update_of_ne hKey.1 _ _

/-
  Writing the entries one after another gives the overlaid
  map, in whatever order they are stored.
-/
theorem apply_eq_foldl
    (overlay : Overlay κ ν)
    (base : κ → Option ν) :
    overlay.entries.foldl
        (fun m write => Function.update m write.1 write.2)
        base =
      apply overlay base := by
  funext key
  unfold apply AList.lookup
  have hNodup : overlay.entries.NodupKeys :=
    overlay.nodupKeys
  generalize overlay.entries = writes at hNodup
  induction writes generalizing base with
  | nil => simp
  | cons write writes ih =>
      rcases write with ⟨target, value⟩
      rw [List.nodupKeys_cons] at hNodup
      rw [List.foldl_cons]
      by_cases hKey : key = target
      · subst hKey
        rw [foldl_update_of_notMem _ _ _ hNodup.1]
        simp
      · rw [ih _ hNodup.2, List.dlookup_cons_ne _ _ hKey,
          Function.update_of_ne hKey]

end Overlay
