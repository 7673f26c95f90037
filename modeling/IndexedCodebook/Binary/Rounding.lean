import IndexedCodebook.Binary.Format

/-!
# Rounding to nearest, ties to even

Every arithmetic result, every conversion and every number read from text is an exact fraction
that is rounded once. `Format.round` divides the fraction by the spacing of the format at its
size and rounds the quotient to an integer. Magnitudes of a format count its non-negative values in
order, so a quotient that reaches the next power of two, or the infinity, carries by itself.

Source: the rounding of every float operation in `quant`, nearest with ties to even.
-/

namespace IndexedCodebook

-- A power with a natural exponent is the core library's, also in scope of `Monoid`.
attribute [local instance (20000)] instPowNat

/-- The integer nearest to `num / den`; of two equally near ones the even one. -/
def roundDiv (num den : Nat) : Nat :=
  let quotient := num / den
  let remainder := num % den
  if 2 * remainder < den ∨ (2 * remainder = den ∧ quotient % 2 = 0) then quotient else quotient + 1

/-- A whole quotient is not changed by rounding. -/
theorem roundDiv_mul_right (n : Nat) {den : Nat} (h : 0 < den) : roundDiv (n * den) den = n := by
  simp [roundDiv, h]

/-- The exponent of the leading bit of `num / den`, both positive: `2 ^ k ≤ num / den < 2 ^ (k+1)`.
-/
def leadingExponent (num den : Nat) : Int :=
  let guess : Int := (num.log2 : Int) - den.log2
  if den * 2 ^ guess.toNat ≤ num * 2 ^ (-guess).toNat then guess else guess - 1

namespace Format

/-- The exponent of the last place at `num / den`: the spacing of the format's values there. -/
def spacing (f : Format) (num den : Nat) : Int :=
  max f.minExponent (leadingExponent num den - f.fractionBits)

/-- The word nearest to `± num / den`, ties to the even magnitude; a result beyond the largest
finite word is an infinity. -/
def round (f : Format) (negative : Bool) (num den : Nat) : Word f :=
  if num = 0 then Word.zero negative
  else
    let unit := f.spacing num den
    let steps := roundDiv (num * 2 ^ (-unit).toNat) (den * 2 ^ unit.toNat)
    Word.saturated negative (steps + (unit - f.minExponent).toNat * 2 ^ f.fractionBits)

/-- The word nearest to `± significand · 2 ^ exponent`. -/
def roundScaled (f : Format) (negative : Bool) (significand : Nat) (exponent : Int) : Word f :=
  f.round negative (significand * 2 ^ exponent.toNat) (2 ^ (-exponent).toNat)

end Format

namespace Word

/-- The word nearest to a natural number. -/
def ofNat (f : Format) (n : Nat) : Word f := f.round false n 1

end Word

end IndexedCodebook
