import Mathlib.Data.List.Basic
import Mathlib.Tactic.Common

/-
  JSON values, and a library that writes and reads them.

  A text is its bytes.  Of the numbers the values have the
  unsigned ones.  The keys of an object are in order, each
  of them once; a list of fields that is not like that is
  the object of no value.

  Key definitions include:
    * `JsonValue`
    * `JsonValue.strings`
    * `JsonValue.value`
    * `JsonLibrary`

  Key theorems include:
    * `JsonLibrary.exists_dump`
    * `JsonValue.value_object`
-/

------------------------------------------------------------
-- Values
------------------------------------------------------------

/- Numbers are the unsigned ones that are written here. -/
inductive JsonValue where
  | null
  | boolean (value : Bool)
  | number (value : UInt64)
  | string (text : List UInt8)
  | array (items : List JsonValue)
  | object (fields : List (List UInt8 × JsonValue))

namespace JsonValue

/- Every text in a value, the keys among them. -/
mutual

/- All texts in a value, the keys included. -/
def strings : JsonValue → List (List UInt8)
  | .null => []
  | .boolean _ => []
  | .number _ => []
  | .string text => [text]
  | .array items => itemStrings items
  | .object fields => fieldStrings fields

def itemStrings : List JsonValue → List (List UInt8)
  | [] => []
  | item :: items => strings item ++ itemStrings items

def fieldStrings :
    List (List UInt8 × JsonValue) → List (List UInt8)
  | [] => []
  | (key, value) :: fields =>
      key :: (strings value ++ fieldStrings fields)

end

theorem itemStrings_map
    {α : Type}
    (write : α → JsonValue)
    (items : List α) :
    itemStrings (items.map write) =
      items.flatMap fun item => strings (write item) := by
  induction items with
  | nil => rfl
  | cons item items ih =>
      rw [List.map_cons, itemStrings, ih, List.flatMap_cons]

------------------------------------------------------------
-- Access
------------------------------------------------------------

/- What the library throws. -/
inductive Error where
  | typeError
  | invalidUtf8
deriving DecidableEq

/- A boolean is a number, except to the widest type. -/
def getU32 : JsonValue → Except Error UInt32
  | .number value => .ok value.toUInt32
  | .boolean value => .ok (if value then 1 else 0)
  | _ => .error .typeError

/- A number is cut to its low bits, as the library does. -/
def getInt32 : JsonValue → Except Error Int32
  | .number value => .ok value.toUInt32.toInt32
  | .boolean value => .ok (if value then 1 else 0)
  | _ => .error .typeError

/- Only a number is taken. -/
def getU64 : JsonValue → Except Error UInt64
  | .number value => .ok value
  | _ => .error .typeError

/- Only a text is taken. -/
def getString : JsonValue → Except Error (List UInt8)
  | .string text => .ok text
  | _ => .error .typeError

/- The first field of that name. -/
def field
    (json : JsonValue)
    (key : List UInt8) : Option JsonValue :=
  match json with
  | .object fields => fields.lookup key
  | _ => none

/- A key that is not there is answered by the default. -/
def value
    {α : Type}
    (get : JsonValue → Except Error α)
    (json : JsonValue)
    (key : List UInt8)
    (fallback : α) : Except Error α :=
  match json with
  | .object fields =>
      match fields.lookup key with
      | none => .ok fallback
      | some found => get found
  | _ => .error .typeError

theorem value_object
    {α : Type}
    {get : JsonValue → Except Error α}
    {fields : List (List UInt8 × JsonValue)}
    {key : List UInt8}
    (found : JsonValue)
    (hFound : fields.lookup key = some found)
    (fallback : α) :
    value get (.object fields) key fallback = get found := by
  rw [value, hFound]

end JsonValue

------------------------------------------------------------
-- Texts
------------------------------------------------------------

/-
  What a library of JSON promises.  Writing throws if a
  string in the value is not UTF-8, and what is written is
  read back; a text is of no other use than to be read.
-/
structure JsonLibrary (Text : Type) where
  isUtf8 : List UInt8 → Bool
  dump : JsonValue → Option Text
  parse : Text → Option JsonValue
  empty : Text
  isUtf8_of_ascii :
    ∀ text : List UInt8,
      (∀ byte ∈ text, byte < 128) → isUtf8 text = true
  dump_isSome :
    ∀ value, (dump value).isSome = value.strings.all isUtf8
  parse_dump :
    ∀ value text,
      dump value = some text → parse text = some value

namespace JsonLibrary

variable {Text : Type} (json : JsonLibrary Text)

theorem exists_dump
    {value : JsonValue}
    (hStrings :
      ∀ text ∈ value.strings, json.isUtf8 text = true) :
    ∃ text, json.dump value = some text := by
  rw [← Option.isSome_iff_exists, json.dump_isSome,
    List.all_eq_true]
  exact hStrings

theorem strings_of_dump
    {value : JsonValue}
    {text : Text}
    (hDump : json.dump value = some text) :
    ∀ text ∈ value.strings, json.isUtf8 text = true := by
  have hSome := json.dump_isSome value
  rw [hDump, Option.isSome_some] at hSome
  exact List.all_eq_true.mp hSome.symm

end JsonLibrary
