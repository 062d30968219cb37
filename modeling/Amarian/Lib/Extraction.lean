import Mathlib.Data.List.TakeWhile
import Mathlib.Data.Nat.Basic
import Mathlib.Tactic.Common

/-
  Formatted input, as a stream extracts it: blanks are
  skipped, and a number or a word ends where it no longer
  goes on.

  Key definitions include:
    * `Extraction.readUnsigned`
    * `Extraction.readWord`

  Key theorems include:
    * `Extraction.readUnsigned_digits`
    * `Extraction.readUnsigned_toDigits`
    * `Extraction.readWord_append`
-/

------------------------------------------------------------
-- Numbers
------------------------------------------------------------

namespace Extraction

/- The blanks that are skipped before a number. -/
def isSpace
    (char : Char) : Bool :=
  char == ' ' ||
    (decide (9 ≤ char.toNat) && decide (char.toNat ≤ 13))

/- A digit of any base up to thirty-six, in either case. -/
def digitValue
    (char : Char) : Nat :=
  if '0'.toNat ≤ char.toNat ∧ char.toNat ≤ '9'.toNat then
    char.toNat - '0'.toNat
  else if
      'a'.toNat ≤ char.toNat ∧ char.toNat ≤ 'z'.toNat then
    char.toNat - 'a'.toNat + 10
  else if
      'A'.toNat ≤ char.toNat ∧ char.toNat ≤ 'Z'.toNat then
    char.toNat - 'A'.toNat + 10
  else
    36

/- A digit of the base. -/
def isDigit
    (base : Nat)
    (char : Char) : Bool :=
  decide (digitValue char < base)

/- The value of digits, the first one the highest. -/
def valueOf
    (base : Nat)
    (digits : List Char) : Nat :=
  digits.foldl
    (fun value digit => base * value + digitValue digit) 0

/- A hexadecimal number may be marked as one. -/
def dropMark : List Char → List Char
  | '0' :: 'x' :: rest => rest
  | '0' :: 'X' :: rest => rest
  | text => text

/- Whether the text starts with a minus sign. -/
def isNegative
    (text : List Char) : Bool :=
  text.head? == some '-'

/- The text without the sign it may start with. -/
def dropSign
    (text : List Char) : List Char :=
  if isNegative text || text.head? == some '+' then
    text.drop 1
  else
    text

/- Where the digits of a number should start. -/
def numberBody
    (base : Nat)
    (text : List Char) : List Char :=
  let unsigned := dropSign (text.dropWhile isSpace)
  if base = 16 then dropMark unsigned else unsigned

/-
  A number below `limit`, and what is behind it.  A number
  with a minus sign is taken modulo the limit.
-/
def readUnsigned
    (base limit : Nat)
    (text : List Char) : Option (Nat × List Char) :=
  let body := numberBody base text
  let digits := body.takeWhile (isDigit base)
  let value := valueOf base digits
  if digits = [] ∨ limit ≤ value then
    none
  else
    some
      (if isNegative (text.dropWhile isSpace) then
          (limit - value) % limit
        else
          value,
        body.dropWhile (isDigit base))

/- Everything up to the next blank. -/
def readWord
    (text : List Char) : Option (List Char × List Char) :=
  let body := text.dropWhile isSpace
  let word := body.takeWhile fun char => !isSpace char
  if word = [] then
    none
  else
    some (word, body.dropWhile fun char => !isSpace char)

------------------------------------------------------------
-- What Is Left
------------------------------------------------------------

theorem length_dropMark_le
    (text : List Char) :
    (dropMark text).length ≤ text.length := by
  unfold dropMark
  split
  · simp only [List.length_cons]
    omega
  · simp only [List.length_cons]
    omega
  · exact Nat.le_refl _

theorem length_dropSign_le
    (text : List Char) :
    (dropSign text).length ≤ text.length := by
  unfold dropSign
  split
  · rw [List.length_drop]
    exact Nat.sub_le ..
  · exact Nat.le_refl _

theorem length_numberBody_le
    (base : Nat)
    (text : List Char) :
    (numberBody base text).length ≤ text.length := by
  have hUnsigned :
      (dropSign (text.dropWhile isSpace)).length ≤
        text.length :=
    (length_dropSign_le _).trans
      (List.dropWhile_sublist _).length_le
  unfold numberBody
  dsimp only
  split
  · exact (length_dropMark_le _).trans hUnsigned
  · exact hUnsigned

theorem length_of_readUnsigned
    {base limit value : Nat}
    {text rest : List Char}
    (hRead :
      readUnsigned base limit text = some (value, rest)) :
    rest.length ≤ text.length := by
  unfold readUnsigned at hRead
  dsimp only at hRead
  split at hRead
  · cases hRead
  cases hRead
  exact (List.dropWhile_sublist _).length_le.trans
    (length_numberBody_le base text)

theorem length_of_readWord
    {text word rest : List Char}
    (hRead : readWord text = some (word, rest)) :
    rest.length < text.length := by
  unfold readWord at hRead
  dsimp only at hRead
  split at hRead
  · cases hRead
  rename_i hSome
  cases hRead
  have hSplit := congrArg List.length
    (List.takeWhile_append_dropWhile
      (p := fun char => !isSpace char)
      (l := text.dropWhile isSpace))
  have hLess :=
    (List.dropWhile_sublist (l := text) isSpace).length_le
  have hPositive := List.length_pos_iff.mpr hSome
  rw [List.length_append] at hSplit
  omega

------------------------------------------------------------
-- Reading What Was Written
------------------------------------------------------------

/- A blank in front makes no difference. -/
theorem readUnsigned_blank
    {blank : Char}
    (hBlank : isSpace blank = true)
    (base limit : Nat)
    (text : List Char) :
    readUnsigned base limit (blank :: text) =
      readUnsigned base limit text := by
  have hText :
      (blank :: text).dropWhile isSpace =
        text.dropWhile isSpace := by
    rw [List.dropWhile_cons, hBlank, if_pos rfl]
  unfold readUnsigned numberBody
  rw [hText]

theorem readWord_blank
    {blank : Char}
    (hBlank : isSpace blank = true)
    (text : List Char) :
    readWord (blank :: text) = readWord text := by
  simp only [readWord, List.dropWhile_cons, hBlank, if_true]

theorem takeWhile_digits
    {holds : Char → Bool}
    {digits rest : List Char}
    (hDigits : ∀ char ∈ digits, holds char = true)
    (hRest : ∀ char ∈ rest.head?, holds char = false) :
    (digits ++ rest).takeWhile holds = digits ∧
      (digits ++ rest).dropWhile holds = rest := by
  have hStop :
      rest.takeWhile holds = [] ∧
        rest.dropWhile holds = rest := by
    cases rest with
    | nil => exact ⟨rfl, rfl⟩
    | cons first rest =>
        have hFirst := hRest first rfl
        rw [List.takeWhile_cons, List.dropWhile_cons, hFirst]
        exact ⟨rfl, rfl⟩
  rw [List.takeWhile_append_of_pos hDigits,
    List.dropWhile_append_of_pos hDigits, hStop.1, hStop.2,
    List.append_nil]
  exact ⟨rfl, rfl⟩

theorem isDigit_iff
    (char : Char) :
    isDigit 10 char = true ↔
      48 ≤ char.toNat ∧ char.toNat ≤ 57 := by
  rw [isDigit, decide_eq_true_eq, digitValue]
  change (if 48 ≤ char.toNat ∧ char.toNat ≤ 57 then
      char.toNat - 48
    else if 97 ≤ char.toNat ∧ char.toNat ≤ 122 then
      char.toNat - 97 + 10
    else if 65 ≤ char.toNat ∧ char.toNat ≤ 90 then
      char.toNat - 65 + 10
    else
      36) < 10 ↔ _
  split_ifs <;> omega

/- A blank and a sign are digits of no base. -/
theorem digit_plain
    {char : Char}
    (hDigit : isDigit 10 char = true) :
    isSpace char = false ∧ char ≠ '-' ∧ char ≠ '+' := by
  have hCode := (isDigit_iff char).mp hDigit
  have hOther :
      ∀ other : Char, other.toNat < 48 → char ≠ other := by
    rintro other hOther rfl
    omega
  refine ⟨?_, hOther '-' (by decide), hOther '+' (by decide)⟩
  have hBlank : (char == ' ') = false :=
    beq_eq_false_iff_ne.mpr (hOther ' ' (by decide))
  rw [isSpace, hBlank, Bool.false_or,
    Bool.and_eq_false_iff, decide_eq_false_iff_not,
    decide_eq_false_iff_not]
  omega

theorem readUnsigned_digits
    {limit : Nat}
    {digits rest : List Char}
    (hSome : digits ≠ [])
    (hDigits : ∀ char ∈ digits, isDigit 10 char = true)
    (hRest : ∀ char ∈ rest.head?, isDigit 10 char = false)
    (hValue : valueOf 10 digits < limit) :
    readUnsigned 10 limit (digits ++ rest) =
      some (valueOf 10 digits, rest) := by
  rcases List.exists_cons_of_ne_nil hSome with
    ⟨first, others, rfl⟩
  rcases digit_plain (hDigits first List.mem_cons_self) with
    ⟨hSpace, hMinus, hPlus⟩
  have hText :
      (first :: others ++ rest).dropWhile isSpace =
        first :: others ++ rest := by
    rw [List.cons_append, List.dropWhile_cons, hSpace]
    rfl
  have hNegative :
      isNegative (first :: others ++ rest) = false := by
    simp [isNegative, hMinus]
  have hBody :
      numberBody 10 (first :: others ++ rest) =
        first :: others ++ rest := by
    rw [numberBody, hText, if_neg (by decide), dropSign,
      hNegative]
    simp [hPlus]
  have hSplit := takeWhile_digits hDigits hRest
  rw [readUnsigned, hBody, hSplit.1, hSplit.2, hText,
    hNegative, if_neg]
  · rfl
  · rintro (hNone | hBig)
    · cases hNone
    · omega

/- The value of a decimal numeral is the number. -/
theorem valueOf_toDigits
    (value : Nat) :
    (∀ char ∈ Nat.toDigits 10 value,
        isDigit 10 char = true) ∧
      valueOf 10 (Nat.toDigits 10 value) = value := by
  have hDecimal : ∀ char ∈ Nat.toDigits 10 value,
      48 ≤ char.toNat ∧ char.toNat ≤ 57 := by
    intro char hChar
    have hDigit := Nat.isDigit_of_mem_toDigits
      (by decide) (Nat.le_refl 10) hChar
    simp only [Char.isDigit, Bool.and_eq_true,
      decide_eq_true_eq, ge_iff_le,
      UInt32.le_iff_toNat_le] at hDigit
    exact hDigit
  refine ⟨fun char hChar =>
    (isDigit_iff char).mpr (hDecimal char hChar), ?_⟩
  have hAll :
      ∀ (digits : List Char) (total : Nat),
        (∀ char ∈ digits,
          48 ≤ char.toNat ∧ char.toNat ≤ 57) →
          digits.foldl
              (fun value digit =>
                10 * value + digitValue digit) total =
            Nat.ofDigitChars 10 digits total := by
    intro digits
    induction digits with
    | nil => exact fun _ _ => Nat.ofDigitChars_nil.symm
    | cons digit digits ih =>
        intro total hDigits
        rw [List.forall_mem_cons] at hDigits
        rw [List.foldl_cons, Nat.ofDigitChars_cons,
          ih _ hDigits.2, digitValue]
        congr 2
        exact if_pos hDigits.1
  rw [valueOf, hAll _ 0 hDecimal]
  exact Nat.ofDigitChars_toDigits (by decide) (Nat.le_refl 10)

theorem readUnsigned_toDigits
    {limit value : Nat}
    (hValue : value < limit)
    {rest : List Char}
    (hRest : ∀ char ∈ rest.head?, isDigit 10 char = false) :
    readUnsigned 10 limit (Nat.toDigits 10 value ++ rest) =
      some (value, rest) := by
  rcases valueOf_toDigits value with ⟨hDigits, hSame⟩
  have hLess :
      valueOf 10 (Nat.toDigits 10 value) < limit := by
    rw [hSame]
    exact hValue
  have hRead := readUnsigned_digits
    Nat.toDigits_ne_nil hDigits hRest hLess
  rw [hSame] at hRead
  exact hRead

theorem readWord_append
    {word rest : List Char}
    (hSome : word ≠ [])
    (hWord : ∀ char ∈ word, isSpace char = false)
    (hRest : ∀ char ∈ rest.head?, isSpace char = true) :
    readWord (word ++ rest) = some (word, rest) := by
  have hText :
      (word ++ rest).dropWhile isSpace = word ++ rest := by
    rcases List.exists_cons_of_ne_nil hSome with
      ⟨first, others, rfl⟩
    rw [List.cons_append, List.dropWhile_cons,
      hWord first List.mem_cons_self]
    rfl
  have hSplit := @takeWhile_digits
    (fun char => !isSpace char) word rest
    (fun char hChar => by rw [hWord char hChar]; rfl)
    (fun char hChar => by rw [hRest char hChar]; rfl)
  rw [readWord, hText, hSplit.1, hSplit.2, if_neg hSome]

end Extraction
