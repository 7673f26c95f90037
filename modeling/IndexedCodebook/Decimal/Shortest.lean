import IndexedCodebook.Decimal.Basic

/-!
# The fewest digits that read back

`Decimal.shortest` finds the decimal number with the fewest digits that rounds to a given positive
word. It looks at grids of powers of ten, the coarsest first; on each grid only the two neighbours
of the word's value can be nearest to it. The exact value of a word is itself a decimal number, so
some number always reads back.

Source: the floats that are printed without a precision, in `error` 39–42, `quant/validate` 110 and
116, and documents.
-/

namespace IndexedCodebook

-- A power with a natural exponent is the core library's, also in scope of `Monoid`.
attribute [local instance (20000)] instPowNat

/-- Which of two equally near decimal numbers is written: the larger or the one with an even last
digit. -/
inductive Tie where
  | larger
  | even
  deriving DecidableEq, Repr

namespace Decimal

/-- The exponent of the first digit of `num / den`, both positive. -/
def leadingPlace (num den : Nat) : Int :=
  if den ≤ num then (Nat.toDigits 10 (num / den)).length - 1
  else -(Nat.toDigits 10 ((den + num - 1) / num - 1)).length

/-- Of the two multiples of `10 ^ place` around `num / den` the nearer one, if it is accepted, else
the other one, if that is. -/
def onGrid (tie : Tie) (accepts : Decimal → Bool) (num den : Nat) (place : Int) : Option Decimal :=
  let scaledNum := num * 10 ^ (-place).toNat
  let scaledDen := den * 10 ^ place.toNat
  let below := scaledNum / scaledDen
  let rest := scaledNum % scaledDen
  let lower : Decimal := ⟨below, place⟩
  let upper : Decimal := ⟨if rest = 0 then below else below + 1, place⟩
  let upperFirst := decide (scaledDen < 2 * rest) ||
    (decide (scaledDen = 2 * rest) && (tie = .larger || below % 2 = 1))
  let (nearer, other) := if upperFirst then (upper, lower) else (lower, upper)
  if accepts nearer then some nearer else if accepts other then some other else none

/-- The exact value `significand · 2 ^ exponent`. -/
def exact (significand : Nat) (exponent : Int) : Decimal :=
  ⟨significand * 2 ^ exponent.toNat * 5 ^ (-exponent).toNat, min exponent 0⟩

/-- Whether a decimal number rounds to the magnitude of a word. -/
def readsAs {f : Format} (w : Word f) (d : Decimal) : Bool :=
  (f.round false d.num d.den).magnitude == w.magnitude

/-- The shortest decimal number that rounds to the magnitude of a finite word, and of those with as
few digits the nearest. -/
def shortest {f : Format} (tie : Tie) (w : Word f) : Decimal :=
  let d := exact w.significand w.exponent
  let first := leadingPlace d.num d.den
  let grid (n : Nat) := onGrid tie (readsAs w) d.num d.den (first - n)
  if w.magnitude = 0 then ⟨0, 0⟩
  else (((List.range ((first - d.exponent).toNat + 1)).findSome? grid).getD d).trim

end Decimal

/-- How a real number is written. -/
structure RealStyle where
  /-- Which of two equally near numbers is written. -/
  tie : Tie
  /-- What ends a number without fractional digits. -/
  whole : List Char
  /-- Whether a number with so many digits before the point is written without an exponent. -/
  isPositional : Int → Bool
  /-- What stands before an exponent that is not negative. -/
  plus : List Char
  nan : String
  infinity : String
  negativeInfinity : String

namespace RealStyle

/-- The text of a finite word. -/
def finiteText {f : Format} (style : RealStyle) (w : Word f) : List Char :=
  let d := Decimal.shortest style.tie w
  let sign := if w.negative then ['-'] else []
  sign ++
    if style.isPositional d.point then Decimal.positional style.whole d.digits d.point
    else Decimal.scientific style.plus d.digits d.point

/-- The text of a word. -/
def text {f : Format} (style : RealStyle) (w : Word f) : String :=
  if w.isNaN then style.nan
  else if w.isFinite then String.ofList (style.finiteText w)
  else if w.negative then style.negativeInfinity
  else style.infinity

/-- Messages show the shortest digits without an exponent; a half goes to the larger number. -/
def message : RealStyle where
  tie := .larger
  whole := []
  isPositional _ := true
  plus := []
  nan := "NaN"
  infinity := "inf"
  negativeInfinity := "-inf"

end RealStyle

end IndexedCodebook
