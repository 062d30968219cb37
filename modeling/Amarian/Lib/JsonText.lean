import Mathlib.Algebra.Ring.Nat
import Mathlib.Tactic.Common

/-
  The texts of JSON, as far as their first bytes tell them
  apart, and its numbers in full.

  A reader takes a text to a value or discards it.  It takes
  no text that is not JSON, and every number that a double
  can hold.

  Key definitions include:
    * `JsonText.Number`
    * `JsonText.Number.WellFormed`
    * `JsonText.Outlined`
    * `JsonReader`
-/

------------------------------------------------------------
-- Numbers
------------------------------------------------------------

namespace JsonText

/- The ten digits in ASCII. -/
def isDigit
    (byte : UInt8) : Bool :=
  decide (48 ≤ byte) && decide (byte ≤ 57)

/- The value of decimal digits. -/
def valueOf
    (digits : List UInt8) : Nat :=
  digits.foldl
    (fun value digit => 10 * value + (digit.toNat - 48)) 0

/- At least one digit and nothing else. -/
def Digits
    (text : List UInt8) : Prop :=
  text ≠ [] ∧ text.all isDigit = true

/- Only zero itself starts with a zero. -/
def Whole
    (text : List UInt8) : Prop :=
  Digits text ∧ (text.head? = some 48 → text = [48])

/- The part of a number after its marker. -/
structure Exponent where
  marker : UInt8
  sign : Option UInt8
  digits : List UInt8

/- A number as the grammar splits it. -/
structure Number where
  negative : Bool
  whole : List UInt8
  fraction : Option (List UInt8)
  exponent : Option Exponent

/- The marker is an e, the sign a plus or a minus. -/
structure Exponent.WellFormed
    (exponent : Exponent) : Prop where
  marker : exponent.marker = 101 ∨ exponent.marker = 69
  sign :
    ∀ sign ∈ exponent.sign, sign = 43 ∨ sign = 45
  digits : Digits exponent.digits

/- The exponent as it is written. -/
def Exponent.text
    (exponent : Exponent) : List UInt8 :=
  exponent.marker ::
    (exponent.sign.toList ++ exponent.digits)

namespace Number

/- What the grammar asks of each part. -/
structure WellFormed
    (number : Number) : Prop where
  whole : Whole number.whole
  fraction : ∀ digits ∈ number.fraction, Digits digits
  exponent :
    ∀ exponent ∈ number.exponent, exponent.WellFormed

/- The number as it is written. -/
def text
    (number : Number) : List UInt8 :=
  (if number.negative then [45] else []) ++ number.whole ++
    (match number.fraction with
    | none => []
    | some digits => 46 :: digits) ++
    (match number.exponent with
    | none => []
    | some exponent => exponent.text)

/- The power of ten that the exponent multiplies with. -/
def raised
    (number : Number) : Nat :=
  match number.exponent with
  | none => 0
  | some exponent =>
      if exponent.sign = some 45 then 0
      else valueOf exponent.digits

/- The power of ten that is divided by. -/
def lowered
    (number : Number) : Nat :=
  (number.fraction.getD []).length +
    match number.exponent with
    | none => 0
    | some exponent =>
        if exponent.sign = some 45 then
          valueOf exponent.digits
        else 0

/- The size of the number is below a limit. -/
def Below
    (limit : Nat)
    (number : Number) : Prop :=
  valueOf (number.whole ++ number.fraction.getD []) *
      10 ^ number.raised <
    limit * 10 ^ number.lowered

end Number

/- From here on a double is rounded to infinity. -/
def doubleLimit : Nat := 2 ^ 1024 - 2 ^ 970

------------------------------------------------------------
-- Values
------------------------------------------------------------

/- The four blanks of the grammar. -/
def isBlank
    (byte : UInt8) : Bool :=
  byte == 32 || byte == 9 || byte == 10 || byte == 13

/- A byte order mark may stand before a text. -/
def isSkipped
    (byte : UInt8) : Bool :=
  isBlank byte || byte == 239 || byte == 187 || byte == 191

/- What a value without blanks around it may look like. -/
inductive Core
    (text : List UInt8) : Prop
  | null (hText : text = [110, 117, 108, 108])
  | true (hText : text = [116, 114, 117, 101])
  | false (hText : text = [102, 97, 108, 115, 101])
  | string (hQuote : text.head? = some 34)
  | array (hBracket : text.head? = some 91)
  | object (hBrace : text.head? = some 123)
  | number
      (number : Number)
      (hForm : number.WellFormed)
      (hBelow : number.Below doubleLimit)
      (hText : text = number.text)

/- A core, with what may be skipped around it. -/
def Outlined
    (text : List UInt8) : Prop :=
  ∃ before core after,
    text = before ++ core ++ after ∧
      before.all isSkipped = true ∧
      after.all isBlank = true ∧
      Core core

theorem nil_of_all
    {p : UInt8 → Bool}
    {text : List UInt8}
    (hAll : text.all p = true)
    (hNot : ∀ byte ∈ text, p byte = false) :
    text = [] := by
  cases text with
  | nil => rfl
  | cons byte text =>
      rw [List.all_cons, hNot byte (List.mem_cons_self ..)]
        at hAll
      cases hAll

/- With nothing to skip a text is a value as it stands. -/
theorem Outlined.core
    {text : List UInt8}
    (hText : Outlined text)
    (hSolid : ∀ byte ∈ text, isSkipped byte = false) :
    Core text := by
  rcases hText with
    ⟨before, core, after, rfl, hBefore, hAfter, hCore⟩
  have hFirst : before = [] :=
    nil_of_all hBefore fun byte hByte =>
      hSolid byte (List.mem_append_left _
        (List.mem_append_left _ hByte))
  have hLast : after = [] := by
    refine nil_of_all hAfter fun byte hByte => ?_
    have hHere := hSolid byte
      (List.mem_append_right _ hByte)
    simp only [isSkipped, Bool.or_eq_false_iff] at hHere
    exact hHere.1.1.1
  rw [hFirst, hLast, List.nil_append, List.append_nil]
  exact hCore

end JsonText

------------------------------------------------------------
-- Readers
------------------------------------------------------------

/-
  What a library promises that reads JSON.  A text that is
  no JSON, or a number too large, is discarded.
-/
structure JsonReader (Json : Type) where
  ofString : List UInt8 → Json
  isNumber : Json → Bool
  parse : List UInt8 → Option Json
  isNumber_ofString :
    ∀ text, isNumber (ofString text) = false
  outlined :
    ∀ text value,
      parse text = some value → JsonText.Outlined text
  reads :
    ∀ number : JsonText.Number,
      number.WellFormed →
        number.Below JsonText.doubleLimit →
          ∃ value,
            parse number.text = some value ∧
              isNumber value = true
