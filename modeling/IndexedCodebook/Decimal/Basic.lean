import IndexedCodebook.Binary.Rounding

/-!
# Decimal numbers

A decimal number is a coefficient times a power of ten. `Decimal.toWord` reads it as the nearest
word of a format, and `Decimal.text` writes its digits with a point or with an exponent.

Source: the floats in the messages of `error` 39–42 and `quant/validate` 107–124, and in documents.
-/

namespace IndexedCodebook

-- A power with a natural exponent is the core library's, also in scope of `Monoid`.
attribute [local instance (20000)] instPowNat

/-- The number `coefficient · 10 ^ exponent`. -/
structure Decimal where
  coefficient : Nat
  exponent : Int
  deriving DecidableEq, Repr

namespace Decimal

/-- The number as a fraction: its numerator. -/
def num (d : Decimal) : Nat := d.coefficient * 10 ^ d.exponent.toNat

/-- The number as a fraction: its denominator. -/
def den (d : Decimal) : Nat := 10 ^ (-d.exponent).toNat

/-- The digits of the coefficient, most significant first. -/
def digits (d : Decimal) : List Char := Nat.toDigits 10 d.coefficient

/-- How many digits stand before the decimal point; not positive for a number below a tenth. -/
def point (d : Decimal) : Int := d.digits.length + d.exponent

/-- The same number without trailing zeros in its coefficient. -/
def trim (d : Decimal) : Decimal :=
  if d.coefficient ≠ 0 ∧ d.coefficient % 10 = 0 then
    trim ⟨d.coefficient / 10, d.exponent + 1⟩
  else d
termination_by d.coefficient
decreasing_by omega

/-- The word nearest to `± d`. A number with more integer digits than the format has powers of two
is beyond its range, and one with as many leading zeros is below half its smallest word, so the
fraction is formed only between the two. -/
def toWord (f : Format) (negative : Bool) (d : Decimal) : Word f :=
  if d.coefficient = 0 then Word.zero negative
  else if d.point > 2 ^ f.exponentBits then Word.infinite negative
  else if d.point < f.minExponent - 1 then Word.zero negative
  else f.round negative d.num d.den

/-- Digits with a decimal point after the first `point` of them, filled up with zeros. A number
without digits after the point ends in `whole` instead. -/
def positional (whole : List Char) (digits : List Char) (point : Int) : List Char :=
  if point ≤ 0 then
    '0' :: '.' :: (List.replicate (-point).toNat '0' ++ digits)
  else
    let before := point.toNat
    if digits.length ≤ before then
      digits ++ List.replicate (before - digits.length) '0' ++ whole
    else digits.take before ++ '.' :: digits.drop before

/-- One digit, the others after a point, and the exponent of the first digit; `plus` stands before
an exponent that is not negative. -/
def scientific (plus : List Char) (digits : List Char) (point : Int) : List Char :=
  let exponent := point - 1
  let significand := match digits with
    | [] => []
    | [d] => [d]
    | d :: rest => d :: '.' :: rest
  let sign := if exponent < 0 then ['-'] else plus
  significand ++ 'e' :: (sign ++ Nat.toDigits 10 exponent.natAbs)

end Decimal

end IndexedCodebook
