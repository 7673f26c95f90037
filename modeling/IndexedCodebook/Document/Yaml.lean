import IndexedCodebook.Binary.Arithmetic
import IndexedCodebook.Document.Record
import IndexedCodebook.Yaml.Number
import IndexedCodebook.Yaml.Tree

/-!
# Settings in YAML

A record is written as a block mapping, a line for each field. It is read from a mapping whose keys
are scalars; an empty document gives the initial settings. A number has to be a plain scalar,
whatever its tag, or a literal one that is tagged as a number of its kind.

Source: `serde_yaml` on the records of `quant/config` 22 and `quant/validate` 26.
-/

namespace IndexedCodebook.Document.Yaml

open IndexedCodebook.Yaml

/-- The text of a record. -/
def recordText (record : Record) : String :=
  String.join (record.map fun (name, value) ↦ name ++ ": " ++ value.text realStyle ++ "\n")

/-- The full form of a standard tag. -/
def standardTag (name : String) : List Char := ("tag:yaml.org,2002:" ++ name).toList

/-- The text of a scalar, if it can be a number of the kind that a tag names. -/
def numberText? (tagName : String) (s : Scalar) : Option (List Char) :=
  match s.style with
  | .plain => some s.text
  | .literal => if s.tag = some (standardTag tagName) then some s.text else none
  | _ => none

/-- The integer of a scalar. -/
def integer? (s : Scalar) : Option UInt64 := (numberText? "int" s).bind Number.unsigned?

/-- Whether a plain scalar stands for nothing; `none` if its tag says so and its text does not. An
untagged one stands for nothing if it is empty or a null word. -/
def isNothing? (s : Scalar) : Option Bool :=
  match s.tag with
  | none => some (s.text.isEmpty || Number.isNull s.text)
  | some tag =>
      if tag ≠ standardTag "null" then some false
      else if Number.isNull s.text then some true
      else none

/-- The integer of a scalar, or nothing. -/
def optionalInteger? (s : Scalar) : Option (Option UInt64) := do
  let nothing ← if s.style = .plain then isNothing? s else some false
  if nothing then return none else some <$> integer? s

/-- The real number of a scalar. -/
def real? (s : Scalar) : Option Single :=
  (·.convert binary32) <$> (numberText? "float" s).bind Number.real?

/-- What the nodes of a tree mean. -/
def reading (t : Tree) : Reading Node where
  integer node := (t.scalar? node).bind integer?
  optionalInteger node := (t.scalar? node).bind optionalInteger?
  real node := (t.scalar? node).bind real?

/-- The fields of a tree: those of a mapping whose keys are scalars, or none of the empty scalar of
an empty document. -/
def fields? (t : Tree) : Option (List (String × Node)) :=
  match t.root with
  | .mapping pairs => pairs.mapM fun (key, value) ↦ do
      return (String.ofList (← t.scalar? key).text, value)
  | .scalar s => if s.style = .plain ∧ s.text.isEmpty then some [] else none
  | _ => none

/-- Read settings from a YAML text. -/
def read? (α : Type) [Settings α] (text : String) : Option α := do
  let tree ← Tree.parse? text.toList
  let fields ← fields? tree
  readFields α (reading tree) fields

/-- Write settings as a YAML text. -/
def write {α : Type} [Settings α] (settings : α) : String := recordText (Settings.record settings)

end IndexedCodebook.Document.Yaml
