import IndexedCodebook.Yaml.Tag

/-!
# YAML tokens

The tokens of a text are its scalars and marks, and the beginnings and ends of its collections.
Block collections have no brackets of their own: they begin and end where the indentation changes.

Source: the texts that `serde_yaml` reads for `quant/config` 200.
-/

namespace IndexedCodebook.Yaml

/-- How a scalar is written. -/
inductive ScalarStyle where
  | plain
  | quoted
  | literal
  | folded
  deriving DecidableEq, Repr

/-- A token of a YAML text. -/
inductive Token where
  | directive (d : Directive)
  | documentStart
  | documentEnd
  | blockSequenceStart
  | blockMappingStart
  | blockEnd
  | flowSequenceStart
  | flowSequenceEnd
  | flowMappingStart
  | flowMappingEnd
  | blockEntry
  | flowEntry
  | key
  | value
  | alias (name : List Char)
  | anchor (name : List Char)
  | tag (t : Tag)
  | scalar (style : ScalarStyle) (text : List Char)
  deriving DecidableEq, Repr

namespace Token

/-- Whether a token belongs to the frame of a document. -/
def isFrame : Token → Bool
  | directive _ | documentStart | documentEnd => true
  | _ => false

end Token

namespace Directive

/-- The directives at the start of some tokens, and the tokens after them. -/
def ofTokens : List Token → List Directive × List Token
  | .directive d :: rest =>
      let (ds, rest) := ofTokens rest
      (d :: ds, rest)
  | tokens => ([], tokens)

end Directive

end IndexedCodebook.Yaml
