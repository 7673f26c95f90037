import IndexedCodebook.Document.Json
import IndexedCodebook.Document.Yaml

/-!
# Loading settings

The content of a file becomes text, the text becomes settings, and an addressing is checked before
it is given out, so that no load ever gives one that cannot be used.

Source: `quant/config` 183–205; `SPEC_FULL` §4.1 and §6.
-/

namespace IndexedCodebook.Document

/-- The kind of a document: the format that it is written in. -/
inductive Kind where
  | json
  | yaml
  deriving DecidableEq, Repr

namespace Kind

/-- Read settings from a text. -/
def read? (α : Type) [Settings α] : Kind → String → Option α
  | json, text => Json.read? α text
  | yaml, text => Yaml.read? α text

/-- Write settings as a text. -/
def write {α : Type} [Settings α] (settings : α) : Kind → String
  | json => Json.write settings
  | yaml => Yaml.write settings

/-- The fault of a text that is not a document of the kind with the right fields. -/
def malformed : Kind → Fault
  | json => .document .malformedJson
  | yaml => .document .malformedYaml

/-- The addressing of a text. -/
def readAddressing (kind : Kind) (text : String) : Except Fault Addressing :=
  match kind.read? Addressing text with
  | none => .error kind.malformed
  | some a => do
      a.check
      return a

/-- The addressing of a file with the given content; a missing file or one that is not UTF-8 text
cannot be read. `load_json` and `load_yaml`, `quant/config` 184–205. -/
def loadAddressing (kind : Kind) (content : Option ByteArray) : Except Fault Addressing :=
  match content.bind String.fromUTF8? with
  | none => .error (.document .unreadable)
  | some text => kind.readAddressing text

end Kind

end IndexedCodebook.Document
