import IndexedCodebook.Text.Hexadecimal
import IndexedCodebook.Yaml.Cursor

/-!
# Tags and directives

A tag is a handle and a suffix, or a suffix between angle brackets. Directives before a document
state the version of the format or what a handle stands for. Suffixes and what handles stand for
may be written with escapes, and a null character ends them.

Source: the texts that `serde_yaml` reads for `quant/config` 200.
-/

namespace IndexedCodebook.Yaml

/-- A tag as it is written: a handle, empty for a verbatim tag, and a suffix. -/
structure Tag where
  handle : List Char
  suffix : List Char
  deriving DecidableEq, Repr

/-- A directive. -/
inductive Directive where
  | version (major minor : Nat)
  /-- A handle and what it stands for. -/
  | handle (name : List Char) (expansion : List Char)
  deriving DecidableEq, Repr

namespace Tag

/-- Characters of a tag's suffix, the percent sign of escapes aside; commas and brackets only in
verbatim tags and in directives. -/
def isSuffixChar (verbatim : Bool) (c : Char) : Bool :=
  isNameChar c || ";/?:@&=+$.!~*'()".toList.contains c || (verbatim && ",[]".toList.contains c)

/-- The number of octets that follow the first octet of a UTF-8 character. -/
def followers? (octet : Nat) : Option Nat :=
  if octet < 0x80 then some 0
  else if 0xC0 ≤ octet ∧ octet < 0xE0 then some 1
  else if 0xE0 ≤ octet ∧ octet < 0xF0 then some 2
  else if 0xF0 ≤ octet ∧ octet < 0xF8 then some 3
  else none

/-- The text of a suffix: percent escapes stand for the octets of characters, each of which is a
character of its own here. `pending` octets of a character are still to come, and they are escaped
too. -/
def unescape? (pending : Nat) : List Char → Option (List Char)
  | '%' :: a :: b :: rest => do
      let octet ← Text.ofDigits? 16 [a, b]
      let pending ←
        if pending = 0 then followers? octet
        else if 0x80 ≤ octet ∧ octet < 0xC0 then some (pending - 1)
        else none
      return Char.ofNat octet :: (← unescape? pending rest)
  | c :: rest => if pending ≠ 0 ∨ c = '%' then none else do return c :: (← unescape? 0 rest)
  | [] => if pending = 0 then some [] else none

/-- A suffix up to its first null character; what follows does not count. -/
def untilNull (suffix : List Char) : List Char := suffix.takeWhile (· != '\x00')

/-- The suffix at a cursor, and the place after it. -/
def suffix? (verbatim : Bool) (c : Cursor) : Option (List Char × Cursor) := do
  let (written, c) := c.span fun x ↦ isSuffixChar verbatim x || x == '%'
  return (← unescape? 0 written, c)

/-- An exclamation mark at a cursor, the name characters after it and a second exclamation mark, if
there is one, and the place after them. -/
def handle? (c : Cursor) : Option (List Char × Cursor) :=
  if c.head? = some '!' then
    let (name, c) := (c.drop 1).span isNameChar
    if c.head? = some '!' then some ('!' :: name ++ ['!'], c.drop 1) else some ('!' :: name, c)
  else none

/-- A verbatim tag at a cursor, and the place after it. -/
def verbatim? (c : Cursor) : Option (Tag × Cursor) := do
  let (suffix, c) ← suffix? true (c.drop 2)
  if suffix.isEmpty ∨ c.head? ≠ some '>' then none else return (⟨[], untilNull suffix⟩, c.drop 1)

/-- A tag with a handle at a cursor, and the place after it. A single exclamation mark is a handle
if something follows it and else a tag of its own. -/
def shorthand? (c : Cursor) : Option (Tag × Cursor) := do
  let (handle, c) ← handle? c
  let (suffix, c) ← suffix? false c
  if 2 ≤ handle.length ∧ handle.getLast? = some '!' then
    if suffix.isEmpty then none else return (⟨handle, untilNull suffix⟩, c)
  else
    let whole := untilNull (handle.drop 1 ++ suffix)
    return (if whole.isEmpty then ⟨[], ['!']⟩ else ⟨['!'], whole⟩, c)

/-- The tag at a cursor, and the place after it. A blank, a line break, the end of the text or in
flow context a comma has to follow. -/
def read? (flow : Bool) (c : Cursor) : Option (Tag × Cursor) := do
  let (tag, c) ← if (c.rest.drop 1).head? = some '<' then verbatim? c else shorthand? c
  if endsWord c.rest ∨ (flow ∧ c.head? = some ',') then return (tag, c) else none

end Tag

namespace Directive

/-- A number of at most nine digits at a cursor, and the place after it. -/
def number? (c : Cursor) : Option (Nat × Cursor) :=
  let (digits, c) := c.span Char.isDigit
  if digits.isEmpty ∨ 9 < digits.length then none else some (Nat.ofDigitChars 10 digits 0, c)

/-- The value of a version directive. -/
def version? (c : Cursor) : Option (Directive × Cursor) := do
  let (major, c) ← number? c
  if c.head? ≠ some '.' then none
  else
    let (minor, c) ← number? (c.drop 1)
    return (.version major minor, c)

/-- The value of a handle directive. -/
def handleValue? (c : Cursor) : Option (Directive × Cursor) := do
  let (name, c) ← Tag.handle? c
  if name ≠ ['!'] ∧ (name.length < 2 ∨ name.getLast? ≠ some '!') then none
  else if !c.startsWith isBlank then none
  else
    let (expansion, c) ← Tag.suffix? true (c.skip isBlank)
    if expansion.isEmpty ∨ !endsWord c.rest then none
    else return (.handle name (Tag.untilNull expansion), c)

/-- The directive at a cursor, and the place after its line. -/
def read? (c : Cursor) : Option (Directive × Cursor) := do
  let (name, c) := (c.drop 1).span isNameChar
  if !endsWord c.rest then none
  else
    let value := c.skip isBlank
    let (directive, c) ←
      if name = "YAML".toList then version? value
      else if name = "TAG".toList then handleValue? value
      else none
    let c := (c.skip isBlank).skipComment
    if c.endsLine then return (directive, c.next) else none

end Directive

end IndexedCodebook.Yaml
