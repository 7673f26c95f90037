import IndexedCodebook.Binary.Arithmetic
import IndexedCodebook.Json.Token

/-!
# Reading JSON numbers

An integer is read exactly. A real number keeps as many of its digits as fit in 64 bits, in double
precision, and is then multiplied or divided by a power of ten. Each of these steps rounds, so the
result can differ from the nearest double-precision number in its last place. A number beyond the
double-precision range is refused. In single precision, integers of 64 bits are rounded once and all
other numbers by way of double precision.

Source: the numbers of `serde_json`, read by `quant/config` 188.
-/

namespace IndexedCodebook.Json.Number

-- A power with a natural exponent is the core library's, also in scope of `Monoid`.
attribute [local instance (20000)] instPowNat

/-- The number without its fraction and exponent, if it has neither. -/
def integer? (n : Number) : Option Nat :=
  if n.fraction.isNone ∧ n.exponent.isNone then some (Nat.ofDigitChars 10 n.whole 0) else none

/-- The 64-bit integer without a sign that a number is written as. -/
def unsigned? (n : Number) : Option UInt64 := do
  let value ← n.integer?
  if n.negative ∨ 2 ^ (64 : Nat) ≤ value then none else some (.ofNat value)

/-- Digits appended to a significand for as long as it stays below `2 ^ 64`, and the number of
digits that were not appended. -/
def append (significand : Nat) : List Char → Nat × Nat
  | [] => (significand, 0)
  | d :: ds =>
      let longer := significand * 10 + (d.toNat - '0'.toNat)
      if longer < 2 ^ (64 : Nat) then append longer ds else (significand, (d :: ds).length)

/-- The significand of a number and the power of ten that belongs to it, its exponent left aside. -/
def scaled (n : Number) : Nat × Int :=
  let (significand, dropped) := append 0 n.whole
  let fraction := n.fraction.getD []
  let (significand, ignored) := append significand fraction
  (significand, (dropped : Int) - (fraction.length - ignored : Nat))

/-- A power of ten in double precision. -/
def powerOfTen (k : Nat) : Double := Word.ofNat binary64 (10 ^ k)

/-- A double-precision number divided by a power of ten, by at most `10 ^ 308` at a time. -/
def divide (x : Double) (k : Nat) : Double :=
  if h : k ≤ 308 ∨ x.magnitude = 0 then
    if k ≤ 308 then x.div (powerOfTen k) else x
  else divide (x.div (powerOfTen 308)) (k - 308)
termination_by k
decreasing_by simp_wf; omega

/-- A significand times a power of ten in double precision, unless that is out of range. -/
def scale (significand : Nat) (power : Int) : Option Double :=
  let x := Word.ofNat binary64 significand
  if power < 0 then some (divide x power.natAbs)
  else if power ≤ 308 then
    let product := x.mul (powerOfTen power.natAbs)
    if product.isInfinite then none else some product
  else if significand = 0 then some x
  else none

/-- The magnitude of a number in double precision. An exponent of more than 31 bits is too large for
any number but zero, and makes every number with a negative exponent zero. -/
def magnitude? (n : Number) : Option Double :=
  let (significand, power) := n.scaled
  match n.exponent with
  | none => scale significand power
  | some (negative, digits) =>
      let exponent := Nat.ofDigitChars 10 digits 0
      if exponent < 2 ^ (31 : Nat) then
        scale significand (if negative then power - exponent else power + exponent)
      else if significand ≠ 0 ∧ !negative then none
      else some (Word.zero false)

/-- The number in single precision. -/
def toSingle? (n : Number) : Option Single :=
  let limit := if n.negative then 2 ^ (63 : Nat) else 2 ^ (64 : Nat) - 1
  match n.integer? with
  | some value =>
      if value ≤ limit then some ((Word.ofNat binary32 value).withSign n.negative)
      else (·.convert binary32) <$> (·.withSign n.negative) <$> n.magnitude?
  | none => (·.convert binary32) <$> (·.withSign n.negative) <$> n.magnitude?

end IndexedCodebook.Json.Number
