import IndexedCodebook.Text.Hexadecimal

/-!
# JSON tokens

A JSON text is a sequence of tokens with blanks between them. A string token holds the characters
that its escapes stand for, if they are characters: an unpaired surrogate makes the string one that
can be passed over but not read. A number token holds its digits as they are written.

Source: the texts that `serde_json` reads for `quant/config` 188.
-/

namespace IndexedCodebook.Json

/-- A number as it is written. -/
structure Number where
  negative : Bool
  whole : List Char
  fraction : Option (List Char)
  /-- Whether the exponent is negative, and its digits. -/
  exponent : Option (Bool × List Char)
  deriving DecidableEq, Repr

/-- A token of a JSON text. -/
inductive Token where
  | openBrace | closeBrace | openBracket | closeBracket | comma | colon
  | null | true | false
  | number (n : Number)
  | string (text : Option (List Char))
  deriving DecidableEq, Repr

/-- Blanks between tokens. -/
def isBlank (c : Char) : Bool := c == ' ' || c == '\t' || c == '\n' || c == '\r'

/-- The character of an escape with one letter. -/
def escaped? : Char → Option Char
  | '"' => some '"'
  | '\\' => some '\\'
  | '/' => some '/'
  | 'b' => some '\x08'
  | 'f' => some '\x0c'
  | 'n' => some '\n'
  | 'r' => some '\r'
  | 't' => some '\t'
  | _ => none

/-- The UTF-16 code units of a string up to its closing quote, and the text after it. Characters
that are written as such stay characters. -/
def stringUnits : List Char → Option (List (Nat ⊕ Char) × List Char)
  | '"' :: rest => some ([], rest)
  | '\\' :: 'u' :: a :: b :: c :: d :: rest => do
      let unit ← Text.ofDigits? 16 [a, b, c, d]
      let (units, rest) ← stringUnits rest
      return (.inl unit :: units, rest)
  | '\\' :: e :: rest => do
      let c ← escaped? e
      let (units, rest) ← stringUnits rest
      return (.inr c :: units, rest)
  | c :: rest =>
      if c.toNat < 0x20 ∨ c = '\\' then none
      else do
        let (units, rest) ← stringUnits rest
        return (.inr c :: units, rest)
  | [] => none

/-- The characters of a string: two surrogates in a row make one character, and a surrogate that is
left over makes the string unreadable. -/
def characters? : List (Nat ⊕ Char) → Option (List Char)
  | [] => some []
  | .inr c :: units => (c :: ·) <$> characters? units
  | .inl high :: .inl low :: units =>
      if 0xD800 ≤ high ∧ high < 0xDC00 then
        if 0xDC00 ≤ low ∧ low < 0xE000 then
          (Char.ofNat (0x10000 + (high - 0xD800) * 0x400 + (low - 0xDC00)) :: ·) <$>
            characters? units
        else none
      else if 0xDC00 ≤ high ∧ high < 0xE000 then none
      else (Char.ofNat high :: ·) <$> characters? (.inl low :: units)
  | .inl unit :: units =>
      if 0xD800 ≤ unit ∧ unit < 0xE000 then none else (Char.ofNat unit :: ·) <$> characters? units

/-- The digits at the start of a text, at least one, and the text after them. -/
def digits? (cs : List Char) : Option (List Char × List Char) :=
  let ds := cs.takeWhile Char.isDigit
  if ds.isEmpty then none else some (ds, cs.dropWhile Char.isDigit)

/-- The integer digits of a number: a single zero, or digits that do not begin with one. -/
def wholeDigits? : List Char → Option (List Char × List Char)
  | '0' :: rest => if (rest.head?.any Char.isDigit) then none else some (['0'], rest)
  | cs => digits? cs

/-- The digits after the point of a number, if it has one. -/
def fraction? : List Char → Option (Option (List Char) × List Char)
  | '.' :: rest => do
      let (ds, rest) ← digits? rest
      return (some ds, rest)
  | cs => some (none, cs)

/-- The exponent of a number, after its mark. -/
def signedDigits? : List Char → Option ((Bool × List Char) × List Char)
  | '-' :: rest => do
      let (ds, rest) ← digits? rest
      return ((true, ds), rest)
  | '+' :: rest => do
      let (ds, rest) ← digits? rest
      return ((false, ds), rest)
  | cs => do
      let (ds, rest) ← digits? cs
      return ((false, ds), rest)

/-- The exponent of a number, if it has one. -/
def exponent? : List Char → Option (Option (Bool × List Char) × List Char)
  | 'e' :: rest | 'E' :: rest => do
      let (e, rest) ← signedDigits? rest
      return (some e, rest)
  | cs => some (none, cs)

/-- A number after its sign, and the text after it. -/
def number? (negative : Bool) (cs : List Char) : Option (Number × List Char) := do
  let (whole, cs) ← wholeDigits? cs
  let (fraction, cs) ← fraction? cs
  let (exponent, cs) ← exponent? cs
  return (⟨negative, whole, fraction, exponent⟩, cs)

/-- The token at the start of a text that does not begin with a blank, and the text after it. -/
def token? : List Char → Option (Token × List Char)
  | '{' :: rest => some (.openBrace, rest)
  | '}' :: rest => some (.closeBrace, rest)
  | '[' :: rest => some (.openBracket, rest)
  | ']' :: rest => some (.closeBracket, rest)
  | ',' :: rest => some (.comma, rest)
  | ':' :: rest => some (.colon, rest)
  | 'n' :: 'u' :: 'l' :: 'l' :: rest => some (.null, rest)
  | 't' :: 'r' :: 'u' :: 'e' :: rest => some (.true, rest)
  | 'f' :: 'a' :: 'l' :: 's' :: 'e' :: rest => some (.false, rest)
  | '"' :: rest => do
      let (units, rest) ← stringUnits rest
      return (.string (characters? units), rest)
  | '-' :: rest => do
      let (n, rest) ← number? true rest
      return (.number n, rest)
  | cs => do
      let (n, rest) ← number? false cs
      return (.number n, rest)

/-- The tokens of a text; `fuel` is at least the number of its characters. -/
def tokensWithin : Nat → List Char → Option (List Token)
  | 0, cs => if (cs.dropWhile isBlank).isEmpty then some [] else none
  | fuel + 1, cs =>
      match cs.dropWhile isBlank with
      | [] => some []
      | c :: rest => do
          let (token, rest) ← token? (c :: rest)
          let tokens ← tokensWithin fuel rest
          return token :: tokens

/-- The tokens of a text. -/
def tokens? (cs : List Char) : Option (List Token) := tokensWithin cs.length cs

end IndexedCodebook.Json
