import Amarian.Lib.JsonText
import Amarian.Rpc.Client

/-
  What the client makes of a word on its command line.

  A long word of decimal digits is sent as text, and so is
  every word that is no JSON.  Hexadecimal text with one `e`
  in it can be JSON: it is then a number with an exponent.

  Key definitions include:
    * `Rpc.parseArgument`
    * `Rpc.ReadsAsPower`

  Key theorems include:
    * `Rpc.parseArgument_hex_iff`
    * `Sample.power_parsed`
-/

------------------------------------------------------------
-- Arguments
------------------------------------------------------------

namespace Amarian

namespace Rpc

open JsonText

def maxNumericDigits : Nat := 20

def parseArgument
    {Json : Type}
    (reader : JsonReader Json)
    (text : ByteVec) : Json :=
  let allDigits := !text.isEmpty && text.all JsonText.isDigit
  if allDigits && decide (text.length > maxNumericDigits) then
    reader.ofString text
  else
    match reader.parse text with
    | none => reader.ofString text
    | some parsed => parsed

def isHexDigit
    (byte : UInt8) : Bool :=
  JsonText.isDigit byte ||
    (decide (97 ≤ byte) && decide (byte ≤ 102)) ||
    (decide (65 ≤ byte) && decide (byte ≤ 70))

/-
  Digits, an `e`, and digits again: no leading zero, and not
  too large a number for a double.
-/
def ReadsAsPower
    (text : ByteVec) : Prop :=
  ∃ whole marker power,
    text = whole ++ marker :: power ∧
      Whole whole ∧
      (marker = 101 ∨ marker = 69) ∧
      Digits power ∧
      valueOf whole * 10 ^ valueOf power < doubleLimit

------------------------------------------------------------
-- Hexadecimal Words
------------------------------------------------------------

theorem isSkipped_hex
    {byte : UInt8}
    (hHex : isHexDigit byte = true) :
    isSkipped byte = false := by
  rw [← Bool.not_eq_true]
  intro hSkipped
  simp only [isSkipped, isBlank, Bool.or_eq_true,
    beq_iff_eq] at hSkipped
  rcases hSkipped with
    ((((((rfl | rfl) | rfl) | rfl) | rfl) | rfl) | rfl) <;>
    exact absurd hHex (by decide)

section Words

variable {text : ByteVec}

theorem head_hex
    (hHex : ∀ byte ∈ text, isHexDigit byte = true)
    {byte : UInt8}
    (hHead : text.head? = some byte) :
    isHexDigit byte = true :=
  hHex byte (List.mem_of_head? hHead)

/-
  A number in hexadecimal digits has neither a sign nor a
  fraction, so it is all digits unless it has an exponent.
-/
theorem number_hex
    {number : Number}
    (hHex : ∀ byte ∈ number.text, isHexDigit byte = true)
    (hForm : number.WellFormed)
    (hBelow : number.Below doubleLimit) :
    number.text.all JsonText.isDigit = true ∨
      ReadsAsPower number.text := by
  rcases number with ⟨negative, whole, fraction, exponent⟩
  have hNot : ∀ byte, isHexDigit byte = false →
      byte ∉ Number.text ⟨negative, whole, fraction, exponent⟩ := by
    intro byte hByte hInside
    exact Bool.noConfusion (hByte.symm.trans (hHex byte hInside))
  cases negative with
  | true =>
      exact absurd (List.mem_append_left _
        (List.mem_append_left _ (List.mem_append_left _
          (List.mem_singleton_self _)))) (hNot 45 (by decide))
  | false =>
      cases fraction with
      | some digits =>
          exact absurd (List.mem_append_left _
            (List.mem_append_right _ (List.mem_cons_self ..)))
            (hNot 46 (by decide))
      | none =>
          cases exponent with
          | none =>
              left
              simpa [Number.text] using hForm.whole.1.2
          | some exponent =>
              right
              have hShape := hForm.exponent exponent rfl
              rcases exponent with ⟨marker, sign, digits⟩
              cases sign with
              | some sign =>
                  have hSign := hShape.sign sign rfl
                  refine absurd
                    (List.mem_append_right _ (List.mem_cons_of_mem _
                      (List.mem_cons_self ..)))
                    (hNot sign ?_)
                  rcases hSign with rfl | rfl <;> decide
              | none =>
                  refine ⟨whole, marker, digits, ?_,
                    hForm.whole, hShape.marker,
                    hShape.digits, ?_⟩
                  · simp [Number.text, Exponent.text]
                  · simpa [Number.Below, Number.raised,
                      Number.lowered] using hBelow

/- Of the values of JSON only numbers are hexadecimal. -/
theorem core_hex
    (hHex : ∀ byte ∈ text, isHexDigit byte = true)
    (hCore : Core text) :
    text.all JsonText.isDigit = true ∨ ReadsAsPower text := by
  cases hCore with
  | null hText =>
      exact absurd
        (head_hex hHex (congrArg List.head? hText))
        (by decide)
  | true hText =>
      exact absurd
        (head_hex hHex (congrArg List.head? hText))
        (by decide)
  | false hText =>
      rw [hText] at hHex
      exact absurd (hHex 108 (by decide)) (by decide)
  | string hQuote =>
      exact absurd (head_hex hHex hQuote) (by decide)
  | array hBracket =>
      exact absurd (head_hex hHex hBracket) (by decide)
  | object hBrace =>
      exact absurd (head_hex hHex hBrace) (by decide)
  | number number hForm hBelow hText =>
      rw [hText] at hHex ⊢
      exact number_hex hHex hForm hBelow

theorem parse_power
    {Json : Type}
    (reader : JsonReader Json)
    (hPower : ReadsAsPower text) :
    ∃ value,
      reader.parse text = some value ∧
        reader.isNumber value = true := by
  rcases hPower with
    ⟨whole, marker, power, rfl, hWhole, hMarker, hPower,
      hLess⟩
  let number : Number :=
    { negative := false
      whole
      fraction := none
      exponent :=
        some { marker, sign := none, digits := power } }
  have hForm : number.WellFormed := by
    refine ⟨hWhole, ?_, ?_⟩
    · intro digits hNone
      cases hNone
    · intro exponent hExponent
      cases hExponent
      refine ⟨hMarker, ?_, hPower⟩
      intro sign hNone
      cases hNone
  have hBelow : number.Below doubleLimit := by
    simpa [number, Number.Below, Number.raised,
      Number.lowered] using hLess
  have hText : number.text = whole ++ marker :: power := by
    simp [number, Number.text, Exponent.text]
  rw [← hText]
  exact reader.reads number hForm hBelow

theorem not_allDigits_of_power
    (hPower : ReadsAsPower text) :
    text.all JsonText.isDigit = false := by
  rcases hPower with
    ⟨whole, marker, power, rfl, -, hMarker, -⟩
  have hNot : JsonText.isDigit marker = false := by
    rcases hMarker with rfl | rfl <;> decide
  rw [List.all_append, List.all_cons, hNot, Bool.false_and,
    Bool.and_false]

theorem isNumber_parseArgument
    {Json : Type}
    (reader : JsonReader Json)
    (hPower : ReadsAsPower text) :
    reader.isNumber (parseArgument reader text) = true := by
  rcases parse_power reader hPower with
    ⟨value, hParsed, hNumber⟩
  unfold parseArgument
  rw [not_allDigits_of_power hPower, hParsed, Bool.and_false]
  exact hNumber

/-
  A long hexadecimal word is sent as the text it is, unless
  it is a number with an exponent: then it is sent as that
  number.
-/
theorem parseArgument_hex_iff
    {Json : Type}
    (reader : JsonReader Json)
    (hHex : ∀ byte ∈ text, isHexDigit byte = true)
    (hLong : maxNumericDigits < text.length) :
    parseArgument reader text = reader.ofString text ↔
      ¬ReadsAsPower text := by
  constructor
  · intro hString hPower
    have hNumber := isNumber_parseArgument reader hPower
    rw [hString, reader.isNumber_ofString] at hNumber
    cases hNumber
  · intro hNot
    have hSome : text.isEmpty = false := by
      cases text with
      | nil => cases hLong
      | cons byte text => rfl
    unfold parseArgument
    rw [hSome, decide_eq_true hLong]
    cases hDigits : text.all JsonText.isDigit with
    | true => rfl
    | false =>
        change (match reader.parse text with
          | none => reader.ofString text
          | some parsed => parsed) = reader.ofString text
        cases hParsed : reader.parse text with
        | none => rfl
        | some value =>
            have hOutlined := reader.outlined text value hParsed
            have hCore := hOutlined.core fun byte hByte =>
              isSkipped_hex (hHex byte hByte)
            rcases core_hex hHex hCore with hAll | hPower
            · rw [hDigits] at hAll
              cases hAll
            · exact absurd hPower hNot

end Words

end Rpc

------------------------------------------------------------
-- A Number In Hexadecimal
------------------------------------------------------------

namespace Sample

open JsonText Rpc

/- Reads numbers only, and of a number just that it is one. -/
noncomputable def numberReader :
    JsonReader (Option ByteVec) :=
  open Classical in
  { ofString := some
    isNumber := Option.isNone
    parse := fun text =>
      if ∃ number : Number,
          number.WellFormed ∧ number.Below doubleLimit ∧
            text = number.text then
        some none
      else none
    isNumber_ofString := fun _ => rfl
    outlined := by
      intro text value hParsed
      split at hParsed
      · rename_i hNumber
        rcases hNumber with ⟨number, hForm, hBelow, hText⟩
        exact ⟨[], text, [], by simp, rfl, rfl,
          .number number hForm hBelow hText⟩
      · cases hParsed
    reads := by
      intro number hForm hBelow
      exact ⟨none, if_pos ⟨number, hForm, hBelow, rfl⟩, rfl⟩ }

/- A word of letters only is sent as it stands. -/
theorem parseArgument_letters :
    parseArgument numberReader (List.replicate 22 97) =
      numberReader.ofString (List.replicate 22 97) := by
  refine (parseArgument_hex_iff numberReader
    (List.all_eq_true.mp (by decide)) (by decide)).mpr ?_
  rintro ⟨whole, marker, power, hText, -, hMarker, -⟩
  have hInside : marker ∈ List.replicate 22 (97 : UInt8) := by
    rw [hText]
    exact List.mem_append_right _ (List.mem_cons_self ..)
  rw [List.eq_of_mem_replicate hInside] at hMarker
  exact absurd hMarker (by decide)

/- A one, an `e` and twenty zeros: the number one. -/
def powerText : ByteVec :=
  49 :: 101 :: List.replicate 20 48

theorem readsAsPower_powerText :
    ReadsAsPower powerText := by
  refine ⟨[49], 101, List.replicate 20 48, rfl,
    ⟨⟨?_, ?_⟩, ?_⟩, .inl rfl, ⟨?_, ?_⟩, ?_⟩
  · decide
  · decide
  · decide
  · decide
  · decide
  · have hOne : valueOf [49] = 1 := by decide
    have hZero : valueOf (List.replicate 20 48) = 0 := by
      decide
    rw [hOne, hZero, doubleLimit]
    decide +kernel

/- It is hexadecimal and long, and sent as a number. -/
theorem power_parsed :
    (∀ byte ∈ powerText, isHexDigit byte = true) ∧
      maxNumericDigits < powerText.length ∧
      numberReader.isNumber
          (parseArgument numberReader powerText) =
        true ∧
      parseArgument numberReader powerText ≠
        numberReader.ofString powerText := by
  have hNumber := isNumber_parseArgument numberReader
    readsAsPower_powerText
  refine ⟨List.all_eq_true.mp (by decide), by decide,
    hNumber, ?_⟩
  intro hString
  rw [hString, numberReader.isNumber_ofString] at hNumber
  cases hNumber

end Sample

end Amarian
