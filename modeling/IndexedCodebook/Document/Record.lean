import IndexedCodebook.Addressing.Basic
import IndexedCodebook.Validation.Report

/-!
# Settings as records

Settings are written to documents, and read from them, as records: named fields that hold an
integer, an integer or nothing, or a real number. Reading starts from the default settings and
assigns the fields that a document has, in its order. Fields of other names are passed over, and a
field of the settings may occur only once.

Source: the derived readers and writers of `quant/config` 20–31 and `quant/validate` 24–31.
-/

namespace IndexedCodebook.Document

/-- The value of a field. -/
inductive Value where
  | integer (n : UInt64)
  | null
  | real (x : Single)
  deriving DecidableEq, Repr

namespace Value

/-- A set or unset integer as a value. -/
def ofOption : Option UInt64 → Value
  | some n => .integer n
  | none => .null

/-- The text of a value, real numbers in a given style. -/
def text (style : RealStyle) : Value → String
  | .integer n => toString n.toNat
  | .null => "null"
  | .real x => style.text x

end Value

/-- Documents show the shortest digits of a real number, always with a point but where an exponent
is written: below `1e-6` and from `1e13` on. A half goes to the even digit. -/
def realStyle : RealStyle where
  tie := .even
  whole := ['.', '0']
  isPositional point := -6 < point ∧ point ≤ 13
  plus := []
  nan := ".nan"
  infinity := ".inf"
  negativeInfinity := "-.inf"

/-- A record: fields in the order in which they are written. -/
abbrev Record := List (String × Value)

/-- How the values of a document format are understood, for each kind of field. -/
structure Reading (V : Type) where
  integer : V → Option UInt64
  optionalInteger : V → Option (Option UInt64)
  real : V → Option Single

/-- Settings that are kept in documents. -/
class Settings (α : Type) where
  /-- The settings of an empty document. -/
  initial : α
  /-- The names of the fields, in order. -/
  names : List String
  /-- The settings as a record. -/
  record : α → Record
  /-- The settings with a field assigned; fields of other names change nothing. -/
  assign {V : Type} : Reading V → α → String → V → Option α

/-- Read settings from the fields of a document. -/
def readFields (α : Type) [Settings α] {V : Type} (reading : Reading V)
    (fields : List (String × V)) : Option α :=
  if ((fields.map (·.1)).filter (Settings.names α).contains).Nodup then
    fields.foldlM (fun settings field ↦ Settings.assign reading settings field.1 field.2)
      Settings.initial
  else none

instance : Settings Addressing where
  initial := {}
  names := ["group_size", "col_cardinality", "row_cardinality"]
  record a :=
    [("group_size", .integer a.groupSize), ("col_cardinality", .integer a.colCardinality),
      ("row_cardinality", .ofOption a.rowCardinality)]
  assign reading a name v :=
    if name = "group_size" then (fun n ↦ { a with groupSize := n }) <$> reading.integer v
    else if name = "col_cardinality" then
      (fun n ↦ { a with colCardinality := n }) <$> reading.integer v
    else if name = "row_cardinality" then
      (fun n ↦ { a with rowCardinality := n }) <$> reading.optionalInteger v
    else some a

instance : Settings Validation.Settings where
  initial := {}
  names := ["tolerance", "max_reported"]
  record s := [("tolerance", .real s.tolerance), ("max_reported", .integer s.maxReported)]
  assign reading s name v :=
    if name = "tolerance" then (fun x ↦ { s with tolerance := x }) <$> reading.real v
    else if name = "max_reported" then (fun n ↦ { s with maxReported := n }) <$> reading.integer v
    else some s

end IndexedCodebook.Document
