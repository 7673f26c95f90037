/-!
# Binary floating-point formats

A format is a number of exponent bits and a number of fraction bits; a `Word` of it is a sign and
a magnitude, the bits below the sign read as a natural number. Magnitudes are ordered as the
values they stand for, the infinity comes right after the largest finite one, and everything
beyond the infinity is a NaN. `Word.value` reads a word as an exact number `± m · 2 ^ e`.

Source: the single and double precision, and the bfloat16 of `half`, that `quant` computes in.
-/

namespace IndexedCodebook

-- A power with a natural exponent is the core library's, also in scope of `Monoid`.
attribute [local instance (20000)] instPowNat

/-- A binary interchange format: below the sign an exponent field, below that a fraction field. -/
structure Format where
  exponentBits : Nat
  fractionBits : Nat
  deriving DecidableEq, Repr

namespace Format

/-- Bits of a word below its sign. -/
def magnitudeBits (f : Format) : Nat := f.exponentBits + f.fractionBits

/-- The magnitude of the infinities: exponent field all ones, fraction zero. -/
def infinity (f : Format) : Nat := (2 ^ f.exponentBits - 1) * 2 ^ f.fractionBits

/-- The exponent of the last place of the subnormal and of the smallest normal numbers. -/
def minExponent (f : Format) : Int := 2 - 2 ^ (f.exponentBits - 1) - f.fractionBits

/-- The infinity's magnitude fits below the sign. -/
theorem infinity_lt (f : Format) : f.infinity < 2 ^ f.magnitudeBits := by
  have he := Nat.two_pow_pos f.exponentBits
  have hf := Nat.two_pow_pos f.fractionBits
  unfold infinity magnitudeBits
  rw [Nat.pow_add]
  exact Nat.mul_lt_mul_of_pos_right (by omega) hf

end Format

/-- Half precision: 5 exponent bits and 10 fraction bits. -/
def binary16 : Format := ⟨5, 10⟩

/-- The upper half of single precision: 8 exponent bits and 7 fraction bits. -/
def bfloat16 : Format := ⟨8, 7⟩

/-- Single precision: 8 exponent bits and 23 fraction bits. -/
def binary32 : Format := ⟨8, 23⟩

/-- Double precision: 11 exponent bits and 52 fraction bits. -/
def binary64 : Format := ⟨11, 52⟩

/-- A word of a format; NaNs keep their sign and payload. -/
@[ext] structure Word (f : Format) where
  negative : Bool
  magnitude : Nat
  magnitude_lt : magnitude < 2 ^ f.magnitudeBits
  deriving DecidableEq, Repr

/-- A half-precision word. -/
abbrev Half := Word binary16

/-- A bfloat16 word. -/
abbrev BFloat := Word bfloat16

/-- A single-precision word. -/
abbrev Single := Word binary32

/-- A double-precision word. -/
abbrev Double := Word binary64

/-- What a word stands for: a finite value is exactly `± significand · 2 ^ exponent`. -/
inductive Exact where
  | nan
  | infinite (negative : Bool)
  | finite (negative : Bool) (significand : Nat) (exponent : Int)
  deriving DecidableEq, Repr

namespace Word

variable {f : Format}

/-- The word of a sign and a magnitude; a magnitude beyond the infinity becomes the infinity. -/
def saturated (negative : Bool) (magnitude : Nat) : Word f :=
  ⟨negative, min magnitude f.infinity, Nat.lt_of_le_of_lt (Nat.min_le_right ..) f.infinity_lt⟩

/-- Zero, which carries a sign. -/
def zero (negative : Bool) : Word f := ⟨negative, 0, Nat.two_pow_pos _⟩

/-- The infinity of a sign. -/
def infinite (negative : Bool) : Word f := ⟨negative, f.infinity, f.infinity_lt⟩

/-- The NaN whose magnitude is all ones. -/
def nan : Word f :=
  ⟨false, 2 ^ f.magnitudeBits - 1, Nat.sub_one_lt (Nat.pos_iff_ne_zero.1 (Nat.two_pow_pos _))⟩

/-- The word with the given bits: the sign is the top bit, higher bits are dropped. -/
def ofBits (bits : Nat) : Word f :=
  ⟨bits.testBit f.magnitudeBits, bits % 2 ^ f.magnitudeBits, Nat.mod_lt _ (Nat.two_pow_pos _)⟩

/-- All bits of a word, the sign on top. -/
def toBits (w : Word f) : Nat := (if w.negative then 2 ^ f.magnitudeBits else 0) + w.magnitude

/-- A word beyond the infinity is not a number. -/
def isNaN (w : Word f) : Bool := f.infinity < w.magnitude

/-- A word below the infinity stands for a number. -/
def isFinite (w : Word f) : Bool := w.magnitude < f.infinity

/-- The significand of a finite word: the fraction, with the leading one of a normal number. -/
def significand (w : Word f) : Nat :=
  if w.magnitude / 2 ^ f.fractionBits = 0 then w.magnitude
  else w.magnitude % 2 ^ f.fractionBits + 2 ^ f.fractionBits

/-- The exponent of a finite word's last place. -/
def exponent (w : Word f) : Int :=
  f.minExponent + (w.magnitude / 2 ^ f.fractionBits - 1 : Nat)

/-- The value of a word. -/
def value (w : Word f) : Exact :=
  if w.isNaN then .nan
  else if w.isFinite then .finite w.negative w.significand w.exponent
  else .infinite w.negative

/-- Reading the bits of a word gives the word. -/
theorem ofBits_toBits (w : Word f) : ofBits w.toBits = w := by
  have h := w.magnitude_lt
  refine Word.ext ?_ ?_
  · simp only [ofBits, toBits, Nat.testBit_eq_decide_div_mod_eq]
    cases w.negative
    · simp [Nat.div_eq_of_lt h]
    · simp only [if_true]
      rw [Nat.add_div_left _ (Nat.two_pow_pos _), Nat.div_eq_of_lt h]
      rfl
  · simp only [ofBits, toBits]
    cases w.negative <;> simp [Nat.mod_eq_of_lt h]

end Word

end IndexedCodebook
