import IndexedCodebook.Decimal.Shortest
import IndexedCodebook.Proofs.Decimal.Shortest
import IndexedCodebook.Proofs.Json.Decimal

/-!
# Positional and scientific notation

A decimal number that is written with a point, or with one digit before the point and an exponent,
is the text of a number (`positionalNumber` and `scientificNumber`). With an exponent the number has
the digits of the decimal number; with a point it may have zeros after them
(`decimal_positionalNumber`).
-/

namespace IndexedCodebook.Decimal

open Json (Number)

private theorem ofDigitChars_digits (d : Decimal) :
    Nat.ofDigitChars 10 d.digits 0 = d.coefficient :=
  Nat.ofDigitChars_ten_toDigits

/-- There is a digit. -/
theorem length_digits_pos (d : Decimal) : 0 < d.digits.length := Nat.length_toDigits_pos

/-- The coefficient is less than the power of ten of its digits. -/
theorem coefficient_lt (d : Decimal) : d.coefficient < 10 ^ d.digits.length :=
  (Nat.length_toDigits_le_iff (by decide) d.length_digits_pos).mp le_rfl

private theorem isDigit_digits (d : Decimal) : ∀ c ∈ d.digits, c.isDigit = true :=
  fun _ ↦ isDigit_of_mem_toDigits

/-- A decimal number with more zeros is the same number. -/
theorem toRat_mul_ten_pow (c k : Nat) (p : Int) :
    (⟨c * 10 ^ k, p - k⟩ : Decimal).toRat = (⟨c, p⟩ : Decimal).toRat := by
  rw [toRat, toRat, zpow_sub₀ (by norm_num), zpow_natCast]
  push_cast
  field_simp

/-- The number that is spelled by digits with a point after the first `point` of them. -/
def positionalNumber (negative : Bool) (digits : List Char) (point : Int) : Number :=
  if point ≤ 0 then
    ⟨negative, ['0'], some (List.replicate (-point).toNat '0' ++ digits), none⟩
  else if digits.length ≤ point.toNat then
    ⟨negative, digits ++ List.replicate (point.toNat - digits.length) '0', some ['0'], none⟩
  else ⟨negative, digits.take point.toNat, some (digits.drop point.toNat), none⟩

/-- The number that is spelled by one digit, the others after a point, and an exponent. -/
def scientificNumber (negative : Bool) (digits : List Char) (point : Int) : Number where
  negative := negative
  whole := digits.take 1
  fraction := if digits.length ≤ 1 then none else some (digits.drop 1)
  exponent := some (decide (point - 1 < 0), Nat.toDigits 10 (point - 1).natAbs)

section

variable (negative : Bool) (digits : List Char) (point : Int)

/-- Its sign is the one it was given. -/
@[simp] theorem negative_positionalNumber :
    (positionalNumber negative digits point).negative = negative := by
  rw [positionalNumber]
  split
  · rfl
  · split <;> rfl

/-- It has no exponent. -/
@[simp] theorem exponent_positionalNumber :
    (positionalNumber negative digits point).exponent = none := by
  rw [positionalNumber]
  split
  · rfl
  · split <;> rfl

/-- It has a fraction. -/
@[simp] theorem isSome_fraction_positionalNumber :
    (positionalNumber negative digits point).fraction.isSome = true := by
  rw [positionalNumber]
  split
  · rfl
  · split <;> rfl

/-- The text with a point is that of the number. -/
theorem unsignedChars_positionalNumber (plus : List Char) :
    (positionalNumber negative digits point).unsignedChars plus =
      positional ['.', '0'] digits point := by
  rw [positionalNumber, positional]
  split
  · simp [Number.unsignedChars, Number.fractionChars, Number.exponentChars]
  · simp only
    split
    · simp [Number.unsignedChars, Number.fractionChars, Number.exponentChars]
    · simp [Number.unsignedChars, Number.fractionChars, Number.exponentChars]

/-- The text with an exponent is that of the number. -/
theorem unsignedChars_scientificNumber (plus : List Char) (hne : digits ≠ []) :
    (scientificNumber negative digits point).unsignedChars plus =
      scientific plus digits point := by
  obtain ⟨d, ds, rfl⟩ := List.exists_cons_of_ne_nil hne
  cases ds with
  | nil =>
    simp [scientificNumber, scientific, Number.unsignedChars, Number.fractionChars,
      Number.exponentChars]
  | cons e ds =>
    simp [scientificNumber, scientific, Number.unsignedChars, Number.fractionChars,
      Number.exponentChars]

end

section

variable (d : Decimal) (negative : Bool)

/-- The number of the digits with a point has digits where they are needed. -/
theorem spelled_positionalNumber (hzero : d.coefficient = 0 → d.exponent = 0) :
    (positionalNumber negative d.digits d.point).Spelled := by
  have hdigits := d.isDigit_digits
  have hlength := d.length_digits_pos
  have hpoint : d.point = d.digits.length + d.exponent := rfl
  rw [positionalNumber]
  split
  · refine ⟨.inl rfl, ?_, by simp⟩
    rintro _ ⟨rfl⟩
    refine ⟨by simp [List.ne_nil_of_length_pos hlength], fun c hc ↦ ?_⟩
    rcases List.mem_append.mp hc with hzeros | hc
    · exact isDigit_of_mem_zeros hzeros
    · exact hdigits c hc
  · split
    · refine ⟨toDigits_append_zeros_cases fun h ↦ ?_, by simp, by simp⟩
      have := hzero h
      omega
    · obtain ⟨k, hk⟩ := Nat.exists_eq_add_one_of_ne_zero (show d.point.toNat ≠ 0 by omega)
      rw [hk]
      refine ⟨take_toDigits_cases d.coefficient k, ?_, by simp⟩
      rintro _ ⟨rfl⟩
      refine ⟨?_, fun c hc ↦ hdigits c (List.mem_of_mem_drop hc)⟩
      rw [ne_eq, List.drop_eq_nil_iff]
      omega

/-- The number of the digits with an exponent has digits where they are needed. -/
theorem spelled_scientificNumber : (scientificNumber negative d.digits d.point).Spelled := by
  have hdigits := d.isDigit_digits
  constructor
  · exact take_toDigits_cases d.coefficient 0
  · intro fraction hfraction
    simp only [scientificNumber] at hfraction
    split at hfraction
    · cases hfraction
    · cases hfraction
      refine ⟨?_, fun c hc ↦ hdigits c (List.mem_of_mem_drop hc)⟩
      rw [ne_eq, List.drop_eq_nil_iff]
      omega
  · rintro _ _ ⟨rfl, rfl⟩
    exact ⟨Nat.toDigits_ne_nil, fun c hc ↦ isDigit_of_mem_toDigits hc⟩

/-- With an exponent a number keeps its digits. -/
theorem decimal_scientificNumber : (scientificNumber negative d.digits d.point).decimal = d := by
  have hlength := d.length_digits_pos
  have hpoint : d.point = d.digits.length + d.exponent := rfl
  have hpower : (scientificNumber negative d.digits d.point).power = d.point - 1 := by
    simp only [Number.power, scientificNumber, Nat.ofDigitChars_ten_toDigits, decide_eq_true_eq]
    split <;> omega
  have hfraction : (scientificNumber negative d.digits d.point).fraction.getD [] =
      d.digits.drop 1 := by
    simp only [scientificNumber]
    split
    · next hle => rw [List.drop_eq_nil_of_le hle, Option.getD_none]
    · rfl
  have hwhole : (scientificNumber negative d.digits d.point).whole = d.digits.take 1 := rfl
  rw [Number.decimal, hpower, hfraction, hwhole, List.take_append_drop, ofDigitChars_digits,
    List.length_drop]
  congr 1
  omega

/-- With a point it keeps them too, or has zeros up to the first place after the point. -/
theorem decimal_positionalNumber :
    (positionalNumber negative d.digits d.point).decimal = d ∨
      ∃ k : Nat, d.exponent = k ∧
        (positionalNumber negative d.digits d.point).decimal =
          ⟨d.coefficient * 10 ^ (k + 1), -1⟩ := by
  have hread := d.ofDigitChars_digits
  have hpoint : d.point = d.digits.length + d.exponent := rfl
  have hpower : (positionalNumber negative d.digits d.point).power = 0 := by simp [Number.power]
  rw [Number.decimal, hpower, positionalNumber]
  split
  · left
    have hzeros : Nat.ofDigitChars 10
        (['0'] ++ (List.replicate (-d.point).toNat '0' ++ d.digits)) 0 = d.coefficient := by
      rw [Nat.ofDigitChars_append, Nat.ofDigitChars_append, Nat.ofDigitChars_replicate_zero]
      exact hread
    simp only [Option.getD_some, hzeros, List.length_append, List.length_replicate]
    congr 1
    omega
  · split
    · next hlength =>
      right
      obtain ⟨k, hk⟩ : ∃ k : Nat, d.exponent = k := ⟨d.exponent.toNat, by omega⟩
      refine ⟨k, hk, ?_⟩
      have hzeros : d.point.toNat - d.digits.length = k := by omega
      simp only [Option.getD_some, hzeros, Nat.ofDigitChars_append, hread,
        Nat.ofDigitChars_replicate_zero]
      congr 1
      rw [Nat.ofDigitChars_cons, Nat.ofDigitChars_nil, Nat.pow_succ, Nat.sub_self, Nat.add_zero]
      ring
    · left
      simp only [Option.getD_some, List.take_append_drop, hread, List.length_drop]
      congr 1
      omega

end

end IndexedCodebook.Decimal
