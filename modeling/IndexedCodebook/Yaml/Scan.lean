import IndexedCodebook.Yaml.BlockScalar
import IndexedCodebook.Yaml.PlainScalar
import IndexedCodebook.Yaml.QuotedScalar
import IndexedCodebook.Yaml.Token

/-!
# Reading YAML tokens

The tokens of a text are read from left to right, with the columns of the open block collections. A
mapping key without a mark of its own shows only at the colon behind it. Until then its place is a
pending key; the tokens of the key, and of the mapping that it may begin, are put in front of it
when the colon is read.

Source: the texts that `serde_yaml` reads for `quant/config` 200.
-/

namespace IndexedCodebook.Yaml

/-- A place that turns out to be a mapping key if a colon follows on its line. -/
structure PendingKey where
  /-- Whether the text is refused unless a colon follows. -/
  required : Bool
  /-- The number of tokens before the key. -/
  tokens : Nat
  /-- The cursor at the key. -/
  start : Cursor

/-- The state of reading tokens. -/
structure Scan where
  cursor : Cursor
  tokens : Array Token := #[]
  /-- The column of the innermost block collection, or -1 outside of all. -/
  indent : Int := -1
  /-- The columns around it, the innermost first. -/
  outer : List Int := []
  /-- A pending key for each open flow collection, the innermost first, and one for the block
  context around them. -/
  pending : List (Option PendingKey) := [none]
  /-- Whether a key without a mark may begin here. -/
  keyAllowed : Bool := true

namespace Scan

/-- Whether a flow collection is open. -/
def inFlow (s : Scan) : Bool := !s.pending.tail.isEmpty

/-- Add a token at the end. -/
def push (s : Scan) (t : Token) : Scan := { s with tokens := s.tokens.push t }

/-- Add a token and move the cursor. -/
def pushAt (s : Scan) (t : Token) (c : Cursor) : Scan :=
  { s with tokens := s.tokens.push t, cursor := c }

/-- Give up the pending key of the innermost context; one that is required refuses the text. -/
def dropKey (s : Scan) : Option Scan :=
  match s.pending with
  | some key :: outer => if key.required then none else some { s with pending := none :: outer }
  | _ => some s

/-- Note that a key may begin at the cursor. In block context a key is required at the column of the
collection. -/
def noteKey (s : Scan) : Option Scan :=
  if s.keyAllowed then do
    let s ← s.dropKey
    let required := !s.inFlow && s.indent == s.cursor.column
    return { s with pending := some ⟨required, s.tokens.size, s.cursor⟩ :: s.pending.tail }
  else some s

/-- The pending key of the innermost context, if it is on the line of the cursor and at most 1024
octets before it. A required key that is not refuses the text. -/
def freshKey (s : Scan) : Option (Option PendingKey) :=
  match s.pending with
  | some key :: _ =>
      if key.start.line < s.cursor.line ∨ key.start.offset + 1024 < s.cursor.offset then
        if key.required then none else some none
      else some (some key)
  | _ => some none

/-- Open a block collection at a column beyond the current one, its token put in front of the tokens
from `place` on. -/
def openBlock (s : Scan) (column place : Nat) (t : Token) : Scan :=
  if !s.inFlow && decide (s.indent < column) then
    { s with
      tokens := s.tokens.insertIdxIfInBounds place t
      indent := column
      outer := s.indent :: s.outer }
  else s

/-- Close the columns beyond a column, given the columns around the current one. -/
def closeColumns (column : Int) : Int → List Int → Array Token → Int × List Int × Array Token
  | indent, [], tokens => (indent, [], tokens)
  | indent, next :: outer, tokens =>
      if column < indent then closeColumns column next outer (tokens.push .blockEnd)
      else (indent, next :: outer, tokens)

/-- Close the block collections beyond a column. -/
def closeBlocks (s : Scan) (column : Int) : Scan :=
  if s.inFlow then s
  else
    let (indent, outer, tokens) := closeColumns column s.indent s.outer s.tokens
    { s with indent := indent, outer := outer, tokens := tokens }

/-- End all block collections and the pending key, before a directive or a document marker. -/
def endContent (s : Scan) : Option Scan := do
  let s ← (s.closeBlocks (-1)).dropKey
  return { s with keyAllowed := false }

/-- The place after the byte order mark, the blanks and the comment at the cursor. Tabs are blanks
only where no key may begin or in flow context. -/
def skipLine (s : Scan) : Cursor :=
  let c := s.cursor.skipMark
  let tabs := s.inFlow || !s.keyAllowed
  (c.skip fun x ↦ x == ' ' || (tabs && x == '\t')).skipComment

/-- Skipping a mark, blanks and a comment does not lengthen the text. -/
theorem length_skipLine_le (s : Scan) : s.skipLine.rest.length ≤ s.cursor.rest.length := by
  exact Nat.le_trans (Cursor.length_skipComment_le _)
    (Nat.le_trans (Cursor.length_skip_le ..) (Cursor.length_skipMark_le _))

/-- The state at the next token: blanks, comments and line breaks are passed over, and in block
context a key may begin on a new line. -/
def skipSpace (s : Scan) : Scan :=
  let c := s.skipLine
  if _h : c.startsWith isBreak then
    skipSpace { s with cursor := c.next, keyAllowed := s.keyAllowed || !s.inFlow }
  else { s with cursor := c }
termination_by s.cursor.rest.length
decreasing_by
  exact Nat.lt_of_lt_of_le (Cursor.length_next_lt (Cursor.rest_ne_nil _h)) (length_skipLine_le s)

/-- Open a flow collection. -/
def openFlow (s : Scan) (t : Token) : Option Scan := do
  let s ← s.noteKey
  let s := s.pushAt t (s.cursor.drop 1)
  return { s with pending := none :: s.pending, keyAllowed := true }

/-- Close a flow collection. -/
def closeFlow (s : Scan) (t : Token) : Option Scan := do
  let s ← s.dropKey
  let s := s.pushAt t (s.cursor.drop 1)
  return { s with
    pending := if s.inFlow then s.pending.tail else s.pending
    keyAllowed := false }

/-- A comma in a flow collection. -/
def flowEntry (s : Scan) : Option Scan := do
  let s ← s.dropKey
  return { s.pushAt .flowEntry (s.cursor.drop 1) with keyAllowed := true }

/-- The mark of an item of a block sequence. In block context it may stand only where a key may. -/
def blockEntry (s : Scan) : Option Scan :=
  if !s.inFlow && !s.keyAllowed then none
  else do
    let s := s.openBlock s.cursor.column s.tokens.size .blockSequenceStart
    let s ← s.dropKey
    return { s.pushAt .blockEntry (s.cursor.drop 1) with keyAllowed := true }

/-- The mark of a mapping key. In block context it may stand only where a key may. -/
def explicitKey (s : Scan) : Option Scan :=
  if !s.inFlow && !s.keyAllowed then none
  else do
    let s := s.openBlock s.cursor.column s.tokens.size .blockMappingStart
    let s ← s.dropKey
    return { s.pushAt .key (s.cursor.drop 1) with keyAllowed := !s.inFlow }

/-- The colon before a mapping value. It makes a pending key a key; without one it may stand, in
block context, only where a key may. -/
def value (s : Scan) : Option Scan := do
  match ← s.freshKey with
  | some key =>
      let s := { s with tokens := s.tokens.insertIdxIfInBounds key.tokens .key }
      let s := s.openBlock key.start.column key.tokens .blockMappingStart
      let s := s.pushAt .value (s.cursor.drop 1)
      return { s with pending := none :: s.pending.tail, keyAllowed := false }
  | none =>
      if !s.inFlow && !s.keyAllowed then none
      else
        let s := s.openBlock s.cursor.column s.tokens.size .blockMappingStart
        return { s.pushAt .value (s.cursor.drop 1) with keyAllowed := !s.inFlow }

/-- The name of an anchor or an alias after its mark, and the place after it. -/
def anchorName (c : Cursor) : Option (List Char × Cursor) :=
  let (name, c) := (c.drop 1).span isNameChar
  if name.isEmpty then none
  else if endsWord c.rest ∨ c.startsWith "?:,]\x7d%@`".toList.contains then some (name, c)
  else none

/-- An anchor, an alias, a tag or a quoted scalar: a key may begin with it, and not behind it. -/
def content (s : Scan) (read : Cursor → Option (Token × Cursor)) : Option Scan := do
  let s ← s.noteKey
  let (t, c) ← read s.cursor
  return { s.pushAt t c with keyAllowed := false }

/-- A plain scalar; a key may begin behind it on a new line. -/
def plain (s : Scan) : Option Scan := do
  let s ← s.noteKey
  let (text, c, hasBreak) ← plainScalar s.inFlow s.indent s.cursor
  return { s.pushAt (.scalar .plain text) c with keyAllowed := hasBreak }

/-- A block scalar. -/
def block (s : Scan) (style : ScalarStyle) : Option Scan := do
  let s ← s.dropKey
  let (text, c) ← BlockScalar.read (style == .literal) s.indent s.cursor
  return { s.pushAt (.scalar style text) c with keyAllowed := true }

/-- Characters that a plain scalar cannot begin with. -/
def isIndicator (c : Char) : Bool := "-?:,[]\x7b\x7d#&*!|>'\"%@`".toList.contains c

/-- Whether a plain scalar begins with a character before a text: with one that is not an indicator,
with a hyphen before something other than a blank, or in block context with a question mark or a
colon that is part of a word. -/
def startsPlain (flow : Bool) (c : Char) (rest : List Char) : Bool :=
  (!isIndicator c && !isSpace c) || (c == '-' && !rest.head?.any isBlank)
    || (!flow && (c == '?' || c == ':') && !endsWord rest)

/-- The token that begins with a character before a text, at the cursor. -/
def token (s : Scan) (c : Char) (rest : List Char) : Option Scan :=
  if c == '%' && s.cursor.column == 0 then do
    let s ← s.endContent
    let (directive, c) ← Directive.read? s.cursor
    return s.pushAt (.directive directive) c
  else if s.cursor.atDocumentMarker then do
    let s ← s.endContent
    return s.pushAt (if c == '-' then .documentStart else .documentEnd) (s.cursor.drop 3)
  else if c == '[' then s.openFlow .flowSequenceStart
  else if c == '{' then s.openFlow .flowMappingStart
  else if c == ']' then s.closeFlow .flowSequenceEnd
  else if c == '}' then s.closeFlow .flowMappingEnd
  else if c == ',' then s.flowEntry
  else if c == '-' && endsWord rest then s.blockEntry
  else if c == '?' && (s.inFlow || endsWord rest) then s.explicitKey
  else if c == ':' && (s.inFlow || endsWord rest) then s.value
  else if c == '*' then s.content fun c ↦ do
    let (name, c) ← anchorName c
    return (.alias name, c)
  else if c == '&' then s.content fun c ↦ do
    let (name, c) ← anchorName c
    return (.anchor name, c)
  else if c == '!' then s.content fun c ↦ do
    let (tag, c) ← Tag.read? s.inFlow c
    return (.tag tag, c)
  else if c == '|' && !s.inFlow then s.block .literal
  else if c == '>' && !s.inFlow then s.block .folded
  else if c == '\'' || c == '"' then s.content fun cursor ↦ do
    let (text, cursor) ← quotedScalar (c == '\'') cursor
    return (.scalar .quoted text, cursor)
  else if startsPlain s.inFlow c rest then s.plain
  else none

/-- The end of the text ends all block collections and the pending key. -/
def finish (s : Scan) : Option (Array Token) := do
  let s ← (s.closeBlocks (-1)).dropKey
  return s.tokens

/-- Read all tokens. Each step reads a character at least. -/
def run : Nat → Scan → Option (Array Token)
  | fuel, s =>
      let s := s.skipSpace
      let s := s.closeBlocks s.cursor.column
      match s.cursor.rest, fuel with
      | [], _ => s.finish
      | _, 0 => none
      | c :: rest, fuel + 1 => (s.token c rest).bind (run fuel)

end Scan

/-- The tokens of a text, if all of its characters may stand in one. -/
def tokens? (text : List Char) : Option (List Token) :=
  if text.all isPrintable then
    Array.toList <$> Scan.run (text.length + 1) { cursor := { rest := text } }
  else none

end IndexedCodebook.Yaml
