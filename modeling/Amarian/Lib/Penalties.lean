import Mathlib.Data.Set.Basic
import Mathlib.Logic.Function.Basic
import Mathlib.Tactic.Common

/-
  Points against keys, and bans that pass.

  Points add up under a key until they reach a threshold;
  then the key is banned for a while.  A check that finds a
  ban passed forgets the ban and the points.

  Key definitions include:
    * `Penalties.Book`
    * `Penalties.run`
    * `Penalties.Renames`

  Key theorems include:
    * `Penalties.banned_run`
    * `Penalties.renames_run`
-/

------------------------------------------------------------
-- Books
------------------------------------------------------------

namespace Penalties

variable {κ ν : Type} [DecidableEq κ] [DecidableEq ν]

/- When a key is banned, and for how long. -/
structure Rules where
  threshold : Int
  duration : Nat

/- The points of each key and when its ban ends. -/
structure Book (κ : Type) where
  points : κ → Int
  bans : κ → Option Nat

/- Nobody has points or a ban. -/
def Book.empty : Book κ :=
  { points := fun _ => 0
    bans := fun _ => none }

/- Whether the key is banned by now. -/
def score
    (rules : Rules)
    (now : Nat)
    (key : κ)
    (points : Int)
    (book : Book κ) : Bool × Book κ :=
  let total := book.points key + points
  let scored :=
    { book with
      points := Function.update book.points key total }
  if rules.threshold ≤ total then
    (true,
      { scored with
        bans :=
          Function.update book.bans key
            (some (now + rules.duration)) })
  else
    (false, scored)

/- Whether the key is still banned. -/
def check
    (now : Nat)
    (key : κ)
    (book : Book κ) : Bool × Book κ :=
  match book.bans key with
  | none => (false, book)
  | some expiry =>
      if expiry ≤ now then
        (false,
          { points := Function.update book.points key 0
            bans := Function.update book.bans key none })
      else
        (true, book)

/- Points are given, or a ban is looked up. -/
inductive Call (κ : Type) where
  | score (key : κ) (points : Int) (now : Nat)
  | check (key : κ) (now : Nat)
deriving DecidableEq

namespace Call

/- Whom a call is about. -/
def key : Call κ → κ
  | score key _ _ => key
  | check key _ => key

/- When a call is made. -/
def now : Call κ → Nat
  | score _ _ now => now
  | check _ now => now

/- The same call under another name. -/
def rename
    (name : κ → ν) : Call κ → Call ν
  | score key points now => score (name key) points now
  | check key now => check (name key) now

end Call

/- What one call leaves in the book. -/
def step
    (rules : Rules)
    (book : Book κ) : Call κ → Book κ
  | .score key points now =>
      (score rules now key points book).2
  | .check key now => (check now key book).2

/- The book after some calls. -/
def run
    (rules : Rules)
    (book : Book κ)
    (calls : List (Call κ)) : Book κ :=
  calls.foldl (step rules) book

theorem run_append
    (rules : Rules)
    (book : Book κ)
    (calls later : List (Call κ)) :
    run rules book (calls ++ later) =
      run rules (run rules book calls) later :=
  List.foldl_append ..

------------------------------------------------------------
-- Bans
------------------------------------------------------------

section Bans

variable {rules : Rules} {book : Book κ} {key : κ}

theorem score_banned
    {now : Nat}
    {points : Int}
    (hReached :
      rules.threshold ≤
        (score rules now key points book).2.points key) :
    (score rules now key points book).2.bans key =
      some (now + rules.duration) := by
  unfold score at hReached ⊢
  dsimp only at hReached ⊢
  split
  · exact Function.update_self ..
  · rename_i hLess
    rw [if_neg hLess] at hReached
    dsimp only at hReached
    rw [Function.update_self] at hReached
    exact absurd hReached hLess

theorem check_banned
    {now expiry : Nat}
    (hBan : book.bans key = some expiry)
    (hNow : now < expiry) :
    (check now key book).1 = true := by
  rw [check, hBan]
  dsimp only
  rw [if_neg (Nat.not_le.mpr hNow)]

/- A call before the ban has passed does not shorten it. -/
theorem banned_step
    {expiry : Nat}
    (hBan : ∃ later, book.bans key = some later ∧ expiry ≤ later)
    {call : Call κ}
    (hFrom : expiry ≤ call.now + rules.duration)
    (hTo : call.now < expiry) :
    ∃ later,
      (step rules book call).bans key = some later ∧
        expiry ≤ later := by
  rcases hBan with ⟨later, hBan, hLater⟩
  cases call with
  | score other points now =>
      rw [step, score]
      dsimp only
      split
      · by_cases hHere : key = other
        · rw [hHere]
          exact ⟨_, Function.update_self .., hFrom⟩
        · refine ⟨later, ?_, hLater⟩
          exact (Function.update_of_ne hHere ..).trans hBan
      · exact ⟨later, hBan, hLater⟩
  | check other now =>
      refine ⟨later, ?_, hLater⟩
      rw [step, check]
      split
      · exact hBan
      · rename_i until_ hOther
        split
        · rename_i hPassed
          have hHere : key ≠ other := by
            rintro rfl
            cases hBan.symm.trans hOther
            exact absurd (Nat.lt_of_lt_of_le hTo hLater)
              (Nat.not_lt.mpr hPassed)
          exact (Function.update_of_ne hHere ..).trans hBan
        · exact hBan

/- By induction on the calls. -/
theorem banned_run
    {expiry : Nat}
    (hBan : ∃ later, book.bans key = some later ∧ expiry ≤ later)
    {calls : List (Call κ)}
    (hCalls :
      ∀ call ∈ calls,
        expiry ≤ call.now + rules.duration ∧
          call.now < expiry) :
    ∃ later,
      (run rules book calls).bans key = some later ∧
        expiry ≤ later := by
  induction calls generalizing book with
  | nil => exact hBan
  | cons call calls ih =>
      rw [List.forall_mem_cons] at hCalls
      exact ih (banned_step hBan hCalls.1.1 hCalls.1.2)
        hCalls.2

end Bans

------------------------------------------------------------
-- Names
------------------------------------------------------------

section Names

variable {rules : Rules} {name : κ → ν}
variable {scored keys : Set κ}
variable {book : Book κ} {other : Book ν}

/- No name of a key that is scored is another key's. -/
def Distinct
    (name : κ → ν)
    (scored keys : Set κ) : Prop :=
  ∀ key ∈ scored, ∀ other ∈ keys,
    name other = name key → other = key

/- One book says of the names what the other says of keys. -/
structure Renames
    (name : κ → ν)
    (scored keys : Set κ)
    (book : Book κ)
    (other : Book ν) : Prop where
  points :
    ∀ key ∈ keys, other.points (name key) = book.points key
  bans :
    ∀ key ∈ keys, other.bans (name key) = book.bans key
  known :
    ∀ key, book.bans key ≠ none → key ∈ scored

/- The call is about the keys that are considered. -/
def Call.Within
    (scored keys : Set κ)
    (call : Call κ) : Prop :=
  call.key ∈ keys ∧
    ∀ key points now,
      call = .score key points now → key ∈ scored

omit [DecidableEq κ] [DecidableEq ν] in
theorem renames_empty
    (name : κ → ν)
    (scored keys : Set κ) :
    Renames name scored keys .empty .empty :=
  ⟨fun _ _ => rfl, fun _ _ => rfl,
    fun _ hBan => absurd rfl hBan⟩

theorem update_name
    {α : Type}
    (hName : Distinct name scored keys)
    {values : κ → α}
    {others : ν → α}
    (hSame : ∀ key ∈ keys, others (name key) = values key)
    {here : κ}
    (hHere : here ∈ scored)
    (value : α) :
    ∀ key ∈ keys,
      Function.update others (name here) value (name key) =
        Function.update values here value key := by
  intro key hKey
  by_cases hEqual : key = here
  · rw [hEqual, Function.update_self, Function.update_self]
  · have hNames : name key ≠ name here :=
      fun hNames => hEqual (hName here hHere key hKey hNames)
    rw [Function.update_of_ne hNames,
      Function.update_of_ne hEqual, hSame key hKey]

omit [DecidableEq ν] in
theorem known_update
    (hBooks : Renames name scored keys book other)
    {here : κ}
    (hHere : here ∈ scored)
    (ban : Option Nat) :
    ∀ key,
      Function.update book.bans here ban key ≠ none →
        key ∈ scored := by
  intro key hBan
  by_cases hEqual : key = here
  · rw [hEqual]
    exact hHere
  · rw [Function.update_of_ne hEqual] at hBan
    exact hBooks.known key hBan

theorem renames_step
    (hName : Distinct name scored keys)
    (hBooks : Renames name scored keys book other)
    {call : Call κ}
    (hCall : call.Within scored keys) :
    Renames name scored keys (step rules book call)
      (step rules other (call.rename name)) := by
  cases call with
  | score key points now =>
      have hKey : key ∈ keys := hCall.1
      have hScored : key ∈ scored := hCall.2 key points now rfl
      rw [step, Call.rename, step, score, score,
        hBooks.points key hKey]
      dsimp only
      split
      · exact ⟨update_name hName hBooks.points hScored _,
          update_name hName hBooks.bans hScored _,
          known_update hBooks hScored _⟩
      · exact ⟨update_name hName hBooks.points hScored _,
          hBooks.bans, hBooks.known⟩
  | check key now =>
      have hKey : key ∈ keys := hCall.1
      rw [step, Call.rename, step, check, check,
        hBooks.bans key hKey]
      split
      · exact hBooks
      · rename_i expiry hExpiry
        have hScored : key ∈ scored :=
          hBooks.known key (by rw [hExpiry]; exact nofun)
        split
        · exact ⟨update_name hName hBooks.points hScored _,
            update_name hName hBooks.bans hScored _,
            known_update hBooks hScored _⟩
        · exact hBooks

/- By induction on the calls. -/
theorem renames_run
    (hName : Distinct name scored keys)
    (hBooks : Renames name scored keys book other)
    {calls : List (Call κ)}
    (hCalls : ∀ call ∈ calls, call.Within scored keys) :
    Renames name scored keys (run rules book calls)
      (run rules other (calls.map (Call.rename name))) := by
  induction calls generalizing book other with
  | nil => exact hBooks
  | cons call calls ih =>
      rw [List.forall_mem_cons] at hCalls
      exact ih (renames_step hName hBooks hCalls.1) hCalls.2

end Names

end Penalties
