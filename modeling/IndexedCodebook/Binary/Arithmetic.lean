import IndexedCodebook.Binary.Rounding

/-!
# Arithmetic on words

Each operation computes its exact result from the values of its operands and rounds it once.
Comparisons are exact. A NaN operand gives a NaN, and no comparison with a NaN holds.

Source: the float operations of `quant/cpu/kernels/codebook` 60 and 79, and of `quant/validate` 192
and 273.
-/

namespace IndexedCodebook

-- A power with a natural exponent is the core library's, also in scope of `Monoid`.
attribute [local instance (20000)] instPowNat

namespace Exact

/-- The word of a format nearest to a value. -/
def toWord (f : Format) : Exact → Word f
  | .nan => Word.nan
  | .infinite negative => Word.infinite negative
  | .finite negative significand exponent => f.roundScaled negative significand exponent

/-- The opposite value; a zero changes its sign too. -/
def neg : Exact → Exact
  | .nan => .nan
  | .infinite negative => .infinite !negative
  | .finite negative significand exponent => .finite (!negative) significand exponent

/-- The exact product. An infinity times zero is no number. -/
def mul : Exact → Exact → Exact
  | .finite s m e, .finite s' m' e' => .finite (s != s') (m * m') (e + e')
  | .infinite s, .infinite s' => .infinite (s != s')
  | .infinite s, .finite s' m _ | .finite s' m _, .infinite s =>
      if m = 0 then .nan else .infinite (s != s')
  | .nan, _ | _, .nan => .nan

/-- A signed integer with the given sign. -/
def signed (negative : Bool) (n : Nat) : Int := if negative then -n else n

/-- The exact sum. A zero sum is negative only if both terms are, and infinities of opposite sign
have no sum. -/
def add : Exact → Exact → Exact
  | .finite s m e, .finite s' m' e' =>
      let common := min e e'
      let sum := signed s (m * 2 ^ (e - common).toNat) + signed s' (m' * 2 ^ (e' - common).toNat)
      .finite (if sum = 0 then s && s' else sum < 0) sum.natAbs common
  | .infinite s, .infinite s' => if s = s' then .infinite s else .nan
  | .infinite s, .finite .. | .finite .., .infinite s => .infinite s
  | .nan, _ | _, .nan => .nan

end Exact

namespace Word

variable {f : Format}

/-- The word of another format nearest to a word's value. -/
def convert (g : Format) (w : Word f) : Word g := w.value.toWord g

/-- The product, rounded once. -/
def mul (a b : Word f) : Word f := (a.value.mul b.value).toWord f

/-- The difference, rounded once. -/
def sub (a b : Word f) : Word f := (a.value.add b.value.neg).toWord f

/-- The quotient, rounded once. Zero by zero and infinity by infinity are no numbers. -/
def div (a b : Word f) : Word f :=
  match a.value, b.value with
  | .finite s m e, .finite s' m' e' =>
      if m' = 0 then (if m = 0 then nan else infinite (s != s'))
      else f.round (s != s') (m * 2 ^ (e - e').toNat) (m' * 2 ^ (e' - e).toNat)
  | .infinite s, .finite s' _ _ => infinite (s != s')
  | .finite s _ _, .infinite s' => zero (s != s')
  | _, _ => nan

/-- Whether a word is an infinity. -/
def isInfinite (w : Word f) : Bool := w.magnitude = f.infinity

/-- The word with the opposite sign if asked for. -/
def withSign (negative : Bool) (w : Word f) : Word f :=
  { w with negative := w.negative != negative }

/-- The word without its sign. -/
def abs (w : Word f) : Word f := { w with negative := false }

/-- The place of a word among the words of its format that are numbers; both zeros have place zero.
-/
def rank (w : Word f) : Int := Exact.signed w.negative w.magnitude

/-- Whether `a ≤ b` holds as numbers. -/
def le (a b : Word f) : Bool := !a.isNaN && !b.isNaN && decide (a.rank ≤ b.rank)

end Word

/-- A single-precision word as a double-precision one, exactly. -/
def Single.toDouble (w : Single) : Double := w.convert binary64

end IndexedCodebook
