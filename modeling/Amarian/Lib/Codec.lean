import Mathlib.Tactic.Common
import Mathlib.Data.List.Basic

/-
  Encodings that are read back from the front of a list.

  A reader holds what is left of the input and whether
  anything failed so far.  A writer and a decoder form a
  canonical pair for a set of values if decoding an encoding
  gives the value and leaves the rest, and if whatever is
  decoded was such an encoding.

  Key definitions include:
    * `Codec.Reader`
    * `Codec.Decoder`
    * `Codec.Canonical`

  Key theorems include:
    * `Codec.Canonical.step`
    * `Codec.Canonical.done`
    * `Codec.Canonical.pair`
    * `Codec.Canonical.guard`
    * `Codec.Canonical.map`
    * `Codec.Canonical.append_inj`
-/

------------------------------------------------------------
-- Decoders
------------------------------------------------------------

namespace Codec

/- Failure is sticky: a reader that failed stays failed. -/
structure Reader (τ : Type) where
  unread : List τ
  ok : Bool
deriving DecidableEq

/- A reader at the start of its input. -/
def Reader.ofList
    {τ : Type}
    (input : List τ) : Reader τ :=
  { unread := input, ok := true }

/- Nothing remains once a read has failed. -/
def Reader.remaining
    {τ : Type}
    (reader : Reader τ) : Nat :=
  if reader.ok then reader.unread.length else 0

/- A read gives a value or fails, and moves on either way. -/
def Decoder (τ α : Type) : Type :=
  Reader τ → Option α × Reader τ

variable {τ α β γ : Type}

instance : Monad (Decoder τ) where
  pure value := fun reader => (some value, reader)
  bind first next := fun reader =>
    match first reader with
    | (none, after) => (none, after)
    | (some value, after) => next value after

namespace Decoder

/- From here on the reader has failed. -/
def fail : Decoder τ α := fun reader =>
  (none, { reader with ok := false })

/- All of the tokens or none of them. -/
def consume
    (count : Nat) : Decoder τ (List τ) := fun reader =>
  if !reader.ok || decide (reader.unread.length < count) then
    (none, { reader with ok := false })
  else
    (some (reader.unread.take count),
      { reader with unread := reader.unread.drop count })

/- How much input is left. -/
def remaining : Decoder τ Nat := fun reader =>
  (some reader.remaining, reader)

/- The same read a number of times. -/
def many
    (read : Decoder τ α) : Nat → Decoder τ (List α)
  | 0 => pure []
  | count + 1 => do
      let item ← read
      let items ← many read count
      pure (item :: items)

/- Decoding into a place, which failure leaves as it was. -/
def into
    (read : Decoder τ α)
    (place : α)
    (reader : Reader τ) : (Bool × α) × Reader τ :=
  match read reader with
  | (none, after) => ((false, place), after)
  | (some value, after) => ((true, value), after)

theorem bind_of_some
    {first : Decoder τ α}
    {next : α → Decoder τ β}
    {reader after : Reader τ}
    {value : α}
    (hFirst : first reader = (some value, after)) :
    (first >>= next) reader = next value after := by
  change (match first reader with
    | (none, after) => (none, after)
    | (some value, after) => next value after) = _
  rw [hFirst]

theorem bind_eq_some
    {first : Decoder τ α}
    {next : α → Decoder τ β}
    {reader after : Reader τ}
    {answer : β} :
    (first >>= next) reader = (some answer, after) ↔
      ∃ value middle,
        first reader = (some value, middle) ∧
          next value middle = (some answer, after) := by
  change (match first reader with
    | (none, after) => (none, after)
    | (some value, after) => next value after) = _ ↔ _
  rcases hFirst : first reader with ⟨_ | value, middle⟩
  · simp
  · simp

theorem pure_eq_some
    {value answer : α}
    {reader after : Reader τ} :
    (pure value : Decoder τ α) reader =
        (some answer, after) ↔
      answer = value ∧ after = reader := by
  change (some value, reader) = (some answer, after) ↔ _
  rw [Prod.mk.injEq, Option.some_inj, eq_comm,
    eq_comm (a := reader)]

end Decoder

------------------------------------------------------------
-- Canonical Pairs
------------------------------------------------------------

open Decoder

/- What is read is exactly what is written of a valid value,
   whatever follows it. -/
structure Canonical
    (write : α → List τ)
    (read : Decoder τ α)
    (valid : α → Prop) : Prop where
  sound :
    ∀ reader value after, reader.ok = true →
      read reader = (some value, after) →
        after.ok = true ∧
          valid value ∧
          reader.unread = write value ++ after.unread
  complete :
    ∀ value rest, valid value →
      read (.ofList (write value ++ rest)) =
        (some value, .ofList rest)

namespace Canonical

variable {write : α → List τ} {read : Decoder τ α}
variable {valid : α → Prop}

/- The same pair under other names for its two sides. -/
theorem congr
    {others : α → List τ}
    {good : α → Prop}
    (hValid : ∀ value, good value ↔ valid value)
    (hWrite : ∀ value, valid value →
      others value = write value)
    (hRead : Canonical write read valid) :
    Canonical others read good where
  sound := by
    intro reader value after hOk hDone
    rcases hRead.sound reader value after hOk hDone with
      ⟨hAfter, hFound, hUnread⟩
    rw [hWrite value hFound]
    exact ⟨hAfter, (hValid value).mpr hFound, hUnread⟩
  complete := by
    intro value rest hGood
    have hFound := (hValid value).mp hGood
    rw [hWrite value hFound]
    exact hRead.complete value rest hFound

/-
  The first field of a value, and then the rest of it, which
  is decoded knowing the first field.
-/
theorem step
    {whole : γ → Prop}
    {tail : γ → List τ}
    {next : α → Decoder τ γ}
    (field : γ → α)
    (hFirst : Canonical write read valid)
    (hField : ∀ value, whole value → valid (field value))
    (hRest :
      ∀ first, valid first →
        Canonical tail (next first)
          fun value => whole value ∧ field value = first) :
    Canonical (fun value => write (field value) ++ tail value)
      (read >>= next) whole where
  sound := by
    intro reader value after hOk hDone
    rcases bind_eq_some.mp hDone with
      ⟨first, middle, hRead, hNext⟩
    rcases hFirst.sound reader first middle hOk hRead with
      ⟨hMiddle, hValid, hUnread⟩
    rcases (hRest first hValid).sound middle value after
      hMiddle hNext with
      ⟨hAfter, ⟨hWhole, rfl⟩, hLeft⟩
    refine ⟨hAfter, hWhole, ?_⟩
    rw [hUnread, hLeft, List.append_assoc]
  complete := by
    intro value rest hWhole
    have hValid := hField value hWhole
    rw [List.append_assoc,
      bind_of_some (hFirst.complete _ _ hValid)]
    exact (hRest _ hValid).complete value rest ⟨hWhole, rfl⟩

/- Everything was read: this is the only value left. -/
theorem done
    {value : γ}
    {whole : γ → Prop}
    (hWhole : whole value)
    (hOnly : ∀ other, whole other → other = value) :
    Canonical (fun _ => ([] : List τ)) (pure value) whole where
  sound := by
    intro reader found after hOk hDone
    rcases pure_eq_some.mp hDone with ⟨rfl, rfl⟩
    exact ⟨hOk, hWhole, rfl⟩
  complete := by
    intro found rest hFound
    rw [hOnly found hFound]
    rfl

/- A value of two fields. -/
theorem pair
    {writeNext : β → List τ}
    {readNext : Decoder τ β}
    {validNext : β → Prop}
    (make : α → β → γ)
    (first : γ → α)
    (second : γ → β)
    (hMake : ∀ value, make (first value) (second value) = value)
    (hFirst : ∀ one two, first (make one two) = one)
    (hSecond : ∀ one two, second (make one two) = two)
    (hRead : Canonical write read valid)
    (hReadNext : Canonical writeNext readNext validNext) :
    Canonical
      (fun value =>
        write (first value) ++ writeNext (second value))
      (do
        let one ← read
        let two ← readNext
        pure (make one two))
      fun value =>
        valid (first value) ∧ validNext (second value) := by
  have hFields :
      Canonical
        (fun value =>
          write (first value) ++
            (writeNext (second value) ++ []))
        (do
          let one ← read
          let two ← readNext
          pure (make one two))
        fun value =>
          valid (first value) ∧
            validNext (second value) := by
    apply step first hRead fun _ hWhole => hWhole.1
    intro one hOne
    apply step second hReadNext fun _ hWhole => hWhole.1.2
    intro two hTwo
    apply done
    · rw [hFirst, hSecond]
      exact ⟨⟨⟨hOne, hTwo⟩, rfl⟩, rfl⟩
    · rintro value ⟨⟨-, rfl⟩, rfl⟩
      exact (hMake value).symm
  apply congr (fun _ => Iff.rfl) _ hFields
  intro value _
  rw [List.append_nil]

/- A check of the value that was read. -/
theorem guard
    {refused : α → Bool}
    (hRead : Canonical write read valid) :
    Canonical write
      (do
        let value ← read
        if refused value then fail else pure value)
      fun value => valid value ∧ refused value = false where
  sound := by
    intro reader value after hOk hDone
    rcases bind_eq_some.mp hDone with
      ⟨found, middle, hFound, hCheck⟩
    rcases hRead.sound reader found middle hOk hFound with
      ⟨hMiddle, hValid, hUnread⟩
    cases hRefused : refused found with
    | true =>
        rw [hRefused, if_pos rfl] at hCheck
        cases hCheck
    | false =>
        rw [hRefused, if_neg Bool.false_ne_true] at hCheck
        rcases pure_eq_some.mp hCheck with ⟨rfl, rfl⟩
        exact ⟨hMiddle, ⟨hValid, hRefused⟩, hUnread⟩
  complete := by
    rintro value rest ⟨hValid, hRefused⟩
    rw [bind_of_some (hRead.complete value rest hValid),
      hRefused]
    rfl

theorem many_sound
    (hRead : Canonical write read valid)
    {count : Nat}
    {reader after : Reader τ}
    {items : List α}
    (hOk : reader.ok = true)
    (hDone :
      Decoder.many read count reader =
        (some items, after)) :
    after.ok = true ∧
      items.length = count ∧
      (∀ item ∈ items, valid item) ∧
      reader.unread = items.flatMap write ++ after.unread := by
  induction count generalizing reader items with
  | zero =>
      rcases pure_eq_some.mp hDone with ⟨rfl, rfl⟩
      exact ⟨hOk, rfl, by simp, rfl⟩
  | succ count ih =>
      rcases bind_eq_some.mp hDone with
        ⟨item, middle, hItem, hRest⟩
      rcases bind_eq_some.mp hRest with
        ⟨others, later, hOthers, hPure⟩
      rcases pure_eq_some.mp hPure with ⟨rfl, rfl⟩
      rcases hRead.sound reader item middle hOk hItem with
        ⟨hMiddle, hValid, hUnread⟩
      rcases ih hMiddle hOthers with
        ⟨hAfter, hLength, hAll, hLeft⟩
      refine ⟨hAfter, by rw [List.length_cons, hLength],
        List.forall_mem_cons.mpr ⟨hValid, hAll⟩, ?_⟩
      rw [hUnread, hLeft, List.flatMap_cons,
        List.append_assoc]

theorem many_complete
    (hRead : Canonical write read valid)
    {items : List α}
    (hAll : ∀ item ∈ items, valid item)
    (rest : List τ) :
    Decoder.many read items.length
        (.ofList (items.flatMap write ++ rest)) =
      (some items, .ofList rest) := by
  induction items with
  | nil => rfl
  | cons item items ih =>
      rw [List.forall_mem_cons] at hAll
      rw [List.flatMap_cons, List.append_assoc,
        List.length_cons, Decoder.many,
        bind_of_some (hRead.complete _ _ hAll.1),
        bind_of_some (ih hAll.2)]
      rfl

/- A fixed number of tokens. -/
theorem consume
    (count : Nat) :
    Canonical (fun tokens : List τ => tokens)
      (Decoder.consume count)
      fun tokens => tokens.length = count where
  sound := by
    intro reader tokens after hOk hDone
    unfold Decoder.consume at hDone
    split at hDone
    · cases hDone
    · rename_i hEnough
      simp only [hOk, Bool.not_true, Bool.false_or,
        decide_eq_true_eq, Nat.not_lt] at hEnough
      cases hDone
      refine ⟨hOk, ?_, (List.take_append_drop ..).symm⟩
      rw [List.length_take, Nat.min_eq_left hEnough]
  complete := by
    rintro tokens rest rfl
    unfold Decoder.consume
    rw [if_neg (by simp [Reader.ofList])]
    simp [Reader.ofList]

/- A value behind another representation of it. -/
theorem map
    {decode : α → β}
    {encode : β → α}
    {good : β → Prop}
    (hRead : Canonical write read valid)
    (hDecode :
      ∀ value, valid value →
        good (decode value) ∧ encode (decode value) = value)
    (hEncode :
      ∀ value, good value →
        valid (encode value) ∧
          decode (encode value) = value) :
    Canonical (fun value => write (encode value))
      (do
        let found ← read
        pure (decode found))
      good where
  sound := by
    intro reader value after hOk hDone
    rcases bind_eq_some.mp hDone with
      ⟨found, middle, hFound, hPure⟩
    rcases pure_eq_some.mp hPure with ⟨rfl, rfl⟩
    rcases hRead.sound reader found after hOk hFound with
      ⟨hAfter, hValid, hUnread⟩
    rcases hDecode found hValid with ⟨hGood, hSame⟩
    rw [hSame]
    exact ⟨hAfter, hGood, hUnread⟩
  complete := by
    intro value rest hGood
    rcases hEncode value hGood with ⟨hValid, hSame⟩
    rw [bind_of_some (hRead.complete _ _ hValid)]
    change (some (decode (encode value)), _) = _
    rw [hSame]

/- Two encodings are told apart whatever follows them. -/
theorem append_inj
    (hRead : Canonical write read valid)
    {value other : α}
    {rest more : List τ}
    (hValue : valid value)
    (hOther : valid other)
    (hSame : write value ++ rest = write other ++ more) :
    value = other ∧ rest = more := by
  have hFirst := hRead.complete value rest hValue
  rw [hSame, hRead.complete other more hOther,
    Prod.mk.injEq, Option.some_inj] at hFirst
  exact ⟨hFirst.1.symm,
    (congrArg Reader.unread hFirst.2).symm⟩

/- What decoding into a place does. -/
theorem into_complete
    (hRead : Canonical write read valid)
    {value : α}
    (hValid : valid value)
    (place : α)
    (rest : List τ) :
    Decoder.into read place
        (.ofList (write value ++ rest)) =
      ((true, value), .ofList rest) := by
  unfold Decoder.into
  rw [hRead.complete value rest hValid]

theorem into_sound
    (hRead : Canonical write read valid)
    {place value : α}
    {accepted : Bool}
    {input : List τ}
    {after : Reader τ}
    (hDone :
      Decoder.into read place (.ofList input) =
        ((accepted, value), after)) :
    (accepted = true →
        valid value ∧
          after.ok = true ∧
          input = write value ++ after.unread) ∧
      (accepted = false → value = place) := by
  unfold Decoder.into at hDone
  rcases hFound : read (.ofList input) with
    ⟨_ | found, later⟩
  · rw [hFound] at hDone
    cases hDone
    exact ⟨nofun, fun _ => rfl⟩
  · rw [hFound] at hDone
    cases hDone
    rcases hRead.sound _ _ _ rfl hFound with
      ⟨hAfter, hValid, hUnread⟩
    exact ⟨fun _ => ⟨hValid, hAfter, hUnread⟩, nofun⟩

end Canonical

end Codec
