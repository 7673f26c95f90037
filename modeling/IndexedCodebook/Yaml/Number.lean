import IndexedCodebook.Decimal.Basic
import IndexedCodebook.Text.Hexadecimal

/-!
# Reading YAML numbers

Integers are decimal without leading zeros, or hexadecimal, octal or binary behind a mark, and may
have a plus sign. Real numbers are decimal, with or without a point and an exponent, and are rounded
to the nearest double-precision number; the infinities and NaN have words of their own, and every
other text that is beyond the range is refused.

Source: the numbers of `serde_yaml`, read by `quant/config` 200.
-/

namespace IndexedCodebook.Yaml.Number

-- A power with a natural exponent is the core library's, also in scope of `Monoid`.
attribute [local instance (20000)] instPowNat

/-- A natural number below `2 ^ 64`. -/
def fitting (n : Nat) : Option UInt64 := if n < 2 ^ (64 : Nat) then some (.ofNat n) else none

/-- Several digits that begin with a zero. -/
def hasLeadingZero : List Char → Bool
  | '0' :: d :: rest => (d :: rest).all Char.isDigit
  | _ => false

/-- The integer that a text without a sign writes. -/
def natural? : List Char → Option Nat
  | '0' :: 'x' :: digits => Text.ofDigits? 16 digits
  | '0' :: 'o' :: digits => Text.ofDigits? 8 digits
  | '0' :: 'b' :: digits => Text.ofDigits? 2 digits
  | digits => if hasLeadingZero digits then none else Text.ofDigits? 10 digits

/-- A text without the plus sign that may begin it. -/
def withoutPlus : List Char → List Char
  | '+' :: rest => rest
  | text => text

/-- The 64-bit integer without a sign that a text writes. -/
def unsigned? (text : List Char) : Option UInt64 := (natural? (withoutPlus text)).bind fitting

/-- The size of an exponent, from its digits, at least one. Once it has reached 65536, further
digits do not count. -/
def exponentSize? (digits : List Char) : Option Int :=
  if digits.isEmpty ∨ !digits.all Char.isDigit then none
  else
    some (digits.foldl (fun size d ↦
      if size < 65536 then size * 10 + (d.toNat - '0'.toNat) else size) 0 : Nat)

/-- The value of the exponent of a decimal number after its mark. -/
def exponent? : List Char → Option Int
  | '-' :: digits => (-·) <$> exponentSize? digits
  | '+' :: digits => exponentSize? digits
  | digits => exponentSize? digits

/-- Whether a character marks an exponent. -/
def isExponentMark (c : Char) : Bool := c == 'e' || c == 'E'

/-- The decimal number that a text without a sign writes: digits, at least one of them, with or
without a point, and with or without an exponent. -/
def decimal? (text : List Char) : Option Decimal := do
  let significand := text.takeWhile fun c ↦ !isExponentMark c
  let exponent ← match text.dropWhile fun c ↦ !isExponentMark c with
    | [] => some 0
    | _ :: rest => exponent? rest
  let whole := significand.takeWhile (· != '.')
  let fraction := (significand.dropWhile (· != '.')).drop 1
  let coefficient ← Text.ofDigits? 10 (whole ++ fraction)
  return ⟨coefficient, exponent - fraction.length⟩

/-- A word that is a number. -/
def finite (w : Double) : Option Double := if w.isFinite then some w else none

/-- The double-precision number that a decimal text with a minus sign or without a sign writes. -/
def signedDecimal? : List Char → Option Double
  | '-' :: text => (decimal? text).bind fun d ↦ finite (d.toWord binary64 true)
  | text => (decimal? text).bind fun d ↦ finite (d.toWord binary64 false)

/-- Whether a text is a word in lower case, with a capital, or in capitals. -/
def isWord (word : String) (text : List Char) : Bool :=
  text == word.toList || text == word.capitalize.toList || text == (word.map Char.toUpper).toList

/-- Whether a text is the word for infinity. -/
def isInfinity : List Char → Bool
  | '.' :: text => isWord "inf" text
  | _ => false

/-- Whether a text is the word for NaN. -/
def isNaN : List Char → Bool
  | '.' :: text => text == "nan".toList || text == "NaN".toList || text == "NAN".toList
  | _ => false

/-- Whether a text begins with a sign. -/
def hasSign (text : List Char) : Bool := text.head?.any fun c ↦ c == '+' || c == '-'

/-- The double-precision number that a text writes. -/
def real? (text : List Char) : Option Double :=
  match text with
  | '+' :: rest =>
      if hasSign rest then none
      else if isInfinity rest then some (Word.infinite false)
      else signedDecimal? rest
  | '-' :: rest => if isInfinity rest then some (Word.infinite true) else signedDecimal? text
  | _ =>
      if isInfinity text then some (Word.infinite false)
      else if isNaN text then some Word.nan
      else signedDecimal? text

/-- Whether a text writes that there is no value. -/
def isNull (text : List Char) : Bool := text == ['~'] || isWord "null" text

end IndexedCodebook.Yaml.Number
