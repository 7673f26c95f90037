import Mathlib.Algebra.Group.Nat.Defs
import IndexedCodebook.Decimal.Basic
import IndexedCodebook.Proofs.Json.Spelling

/-!
# The value of a JSON number

A number is the integer of all of its digits at a power of ten (`Number.decimal`). If the integer
fits in 64 bits and the power of ten is not enormous, the number is read by scaling the one by the
other (`magnitude?_eq`).
-/

namespace IndexedCodebook.Json.Number

/-- The exponent that is written, or zero. -/
def power (n : Number) : Int :=
  match n.exponent with
  | none => 0
  | some (negative, digits) =>
      if negative then -(Nat.ofDigitChars 10 digits 0 : Int) else Nat.ofDigitChars 10 digits 0

/-- The number of all digits, the sign aside. -/
def decimal (n : Number) : Decimal where
  coefficient := Nat.ofDigitChars 10 (n.whole ++ n.fraction.getD []) 0
  exponent := n.power - (n.fraction.getD []).length

/-- Reading more digits gives no smaller number. -/
theorem le_ofDigitChars (digits : List Char) (n : Nat) : n ≤ Nat.ofDigitChars 10 digits n := by
  have hpos : 0 < 10 ^ digits.length := Nat.pow_pos (by decide)
  rw [Nat.ofDigitChars_eq_ofDigitChars_zero]
  exact Nat.le_add_right_of_le (Nat.le_mul_of_pos_left n hpos)

private theorem append_of_lt (digits : List Char) {significand : Nat}
    (h : Nat.ofDigitChars 10 digits significand < 2 ^ 64) :
    append significand digits = (Nat.ofDigitChars 10 digits significand, 0) := by
  induction digits generalizing significand with
  | nil => rfl
  | cons d digits ih =>
    rw [Nat.ofDigitChars_cons, Nat.mul_comm] at h
    have hlt := Nat.lt_of_le_of_lt (le_ofDigitChars digits _) h
    rw [append, Nat.ofDigitChars_cons, Nat.mul_comm 10]
    simp only [hlt, if_true]
    exact ih h

variable {n : Number}

private theorem scaled_eq (h : n.decimal.coefficient < 2 ^ 64) :
    n.scaled = (n.decimal.coefficient, -((n.fraction.getD []).length : Int)) := by
  have hsplit : n.decimal.coefficient = Nat.ofDigitChars 10 (n.fraction.getD [])
      (Nat.ofDigitChars 10 n.whole 0) := by
    rw [decimal, Nat.ofDigitChars_append]
  rw [hsplit] at h ⊢
  have hwhole := append_of_lt n.whole (Nat.lt_of_le_of_lt (le_ofDigitChars _ _) h)
  have hfraction := append_of_lt (n.fraction.getD []) h
  simp only [scaled, hwhole, hfraction]
  simp

/-- The magnitude of a number is its integer, scaled by its power of ten. -/
theorem magnitude?_eq (h : n.decimal.coefficient < 2 ^ 64) (hpower : n.power.natAbs < 2 ^ 31) :
    n.magnitude? = scale n.decimal.coefficient n.decimal.exponent := by
  rw [power] at hpower
  simp only [magnitude?, scaled_eq h]
  cases hexponent : n.exponent with
  | none => simp [decimal, power, hexponent]
  | some signed =>
    obtain ⟨negative, digits⟩ := signed
    simp only [hexponent] at hpower
    have hlt : Nat.ofDigitChars 10 digits 0 < 2 ^ 31 := by
      split at hpower <;> omega
    have hsum : n.decimal.exponent = if negative then
        -((n.fraction.getD []).length : Int) - Nat.ofDigitChars 10 digits 0
      else -((n.fraction.getD []).length : Int) + Nat.ofDigitChars 10 digits 0 := by
      simp only [decimal, power, hexponent]
      split <;> omega
    simp only [hsum, if_pos hlt]

/-- A number with a fraction or an exponent is read in double precision. -/
theorem toSingle?_eq (hreal : n.fraction.isSome ∨ n.exponent.isSome) :
    n.toSingle? = n.magnitude?.map fun y ↦ (y.withSign n.negative).convert binary32 := by
  have hinteger : n.integer? = none := by
    rw [integer?, if_neg]
    rintro ⟨hfraction, hexponent⟩
    rcases hreal with h | h
    · simp_all
    · simp_all
  rw [toSingle?, hinteger]
  simp only [Option.map_eq_map, Option.map_map]
  rfl

end IndexedCodebook.Json.Number
