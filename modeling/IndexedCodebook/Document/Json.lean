import IndexedCodebook.Document.Record
import IndexedCodebook.Json.Number
import IndexedCodebook.Json.Value

/-!
# Settings in JSON

A record is written as an object without blanks. It is read from an object, or from an array that
holds the values of the first fields in order.

Source: `serde_json` on the records of `quant/config` 22 and `quant/validate` 26.
-/

namespace IndexedCodebook.Document.Json

/-- An exponent that is not negative has a plus sign, and other than finite numbers are null. -/
def realStyle : RealStyle :=
  { Document.realStyle with
    plus := ['+']
    nan := "null"
    infinity := "null"
    negativeInfinity := "null" }

/-- The text of a record. -/
def recordText (record : Record) : String :=
  let fields := record.map fun (name, value) ↦ "\"" ++ name ++ "\":" ++ value.text realStyle
  "\x7b" ++ ",".intercalate fields ++ "\x7d"

/-- What the values of a JSON text mean. -/
def reading : Reading Json.Value where
  integer
    | .number n => n.unsigned?
    | _ => none
  optionalInteger
    | .null => some none
    | .number n => some <$> n.unsigned?
    | _ => none
  real
    | .number n => n.toSingle?
    | _ => none

/-- The fields of a value, if it is an object whose names can be read or an array that is not longer
than the list of names. -/
def fields? (names : List String) : Json.Value → Option (List (String × Json.Value))
  | .object fields => fields.mapM fun (name, value) ↦ do return (String.ofList (← name), value)
  | .array items => if items.length ≤ names.length then some (names.zip items) else none
  | _ => none

/-- Read settings from a JSON text. -/
def read? (α : Type) [Settings α] (text : String) : Option α := do
  let value ← Json.Value.parse? text.toList
  let fields ← fields? (Settings.names α) value
  readFields α reading fields

/-- Write settings as a JSON text. -/
def write {α : Type} [Settings α] (settings : α) : String := recordText (Settings.record settings)

end IndexedCodebook.Document.Json
