import IndexedCodebook.Decimal.Basic

/-!
# A fixed number of decimal places

`Word.fixed` writes the exact value of a word rounded to a number of places. A tie goes to the even
last digit, and the sign stays also where only zeros are left.

Source: the four decimal places of `quant/validate` 122.
-/

namespace IndexedCodebook

-- A power with a natural exponent is the core library's, also in scope of `Monoid`.
attribute [local instance (20000)] instPowNat

namespace Word

variable {f : Format}

/-- The magnitude of a finite word in units of `10 ^ -places`, rounded to nearest, ties to even. -/
def inPlaces (places : Nat) (w : Word f) : Nat :=
  roundDiv (w.significand * 2 ^ w.exponent.toNat * 10 ^ places) (2 ^ (-w.exponent).toNat)

/-- The text of a word with the given number of decimal places, at least one. -/
def fixed (places : Nat) (w : Word f) : String :=
  if w.isNaN then "NaN"
  else
    let sign := if w.negative then "-" else ""
    if w.isFinite then
      let digits := Nat.toDigits 10 (w.inPlaces places)
      let padded := List.replicate (places + 1 - digits.length) '0' ++ digits
      let before := padded.length - places
      sign ++ String.ofList (padded.take before ++ '.' :: padded.drop before)
    else sign ++ "inf"

end Word

end IndexedCodebook
