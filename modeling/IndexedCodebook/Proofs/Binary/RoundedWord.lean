import IndexedCodebook.Proofs.Binary.Boundary

/-!
# Words that are rounded once

A word is the rounded form of a number if `Format.round` gives it for a fraction that is the number
(`Word.Rounds`). Products, quotients, conversions and words of natural numbers are such words. The
rounded form of a number that is not subnormal is off by at most a half in its last place.
-/

namespace IndexedCodebook.Word

variable {f g : Format}

/-- The word is the rounded form of a number, but for the sign. -/
def Rounds (w : Word f) (q : ℚ) : Prop :=
  ∃ (negative : Bool) (num den : Nat), 0 < den ∧ (num : ℚ) / den = q ∧
    w = f.round negative num den

/-- A fraction is rounded. -/
theorem rounds_round (negative : Bool) (num : Nat) {den : Nat} (hden : 0 < den) :
    (f.round negative num den).Rounds (num / den) :=
  ⟨negative, num, den, hden, rfl, rfl⟩

private theorem rounds_roundScaled (negative : Bool) (m : Nat) (e : Int) :
    (f.roundScaled negative m e).Rounds (m * 2 ^ e) := by
  refine ⟨negative, m * 2 ^ e.toNat, 2 ^ (-e).toNat, Nat.two_pow_pos _, ?_, rfl⟩
  rw [zpow_eq_pow_div_pow two_ne_zero e]
  push_cast
  ring

/-- A natural number is rounded. -/
theorem rounds_ofNat (n : Nat) : (ofNat f n).Rounds n := by
  simpa [ofNat] using rounds_round (f := f) false n one_pos

/-- A finite word is rounded to another format. -/
theorem rounds_convert {w : Word f} (hw : w.isFinite) :
    (w.convert g).Rounds (f.number w.magnitude) := by
  rw [convert_of_isFinite hw, ← significand_mul_zpow]
  exact rounds_roundScaled ..

/-- The product of finite words is rounded. -/
theorem rounds_mul {a b : Word f} (ha : a.isFinite) (hb : b.isFinite) :
    (a.mul b).Rounds (f.number a.magnitude * f.number b.magnitude) := by
  have hproduct := rounds_roundScaled (f := f) (a.negative != b.negative)
    (a.significand * b.significand) (a.exponent + b.exponent)
  rw [← mul_of_isFinite ha hb, zpow_add₀ two_ne_zero, Nat.cast_mul, mul_mul_mul_comm,
    significand_mul_zpow, significand_mul_zpow] at hproduct
  exact hproduct

private theorem div_of_isFinite {a b : Word f} (ha : a.isFinite) (hb : b.isFinite)
    (hne : b.magnitude ≠ 0) :
    a.div b = f.round (a.negative != b.negative)
      (a.significand * 2 ^ (a.exponent - b.exponent).toNat)
      (b.significand * 2 ^ (b.exponent - a.exponent).toNat) := by
  have hsignificand : b.significand ≠ 0 := fun h ↦ hne (magnitude_eq_zero h)
  simp only [div, value_of_isFinite ha, value_of_isFinite hb, if_neg hsignificand]

/-- It is rounded. -/
theorem rounds_div {a b : Word f} (ha : a.isFinite) (hb : b.isFinite) (hne : b.magnitude ≠ 0) :
    (a.div b).Rounds (f.number a.magnitude / f.number b.magnitude) := by
  have hsignificand : 0 < b.significand :=
    Nat.pos_of_ne_zero fun h ↦ hne (magnitude_eq_zero h)
  refine ⟨_, _, _, Nat.mul_pos hsignificand (Nat.two_pow_pos _), ?_, div_of_isFinite ha hb hne⟩
  rw [← significand_mul_zpow, ← significand_mul_zpow, mul_div_mul_comm, ← zpow_sub₀ two_ne_zero,
    zpow_eq_pow_div_pow two_ne_zero, neg_sub]
  push_cast
  rw [div_mul_div_comm]

/-- The sign of a rounded fraction is the sign it had. -/
@[simp] theorem negative_round (f : Format) (negative : Bool) (num den : Nat) :
    (f.round negative num den).negative = negative := by
  rw [Format.round]
  split
  · rfl
  · rfl

/-- A natural number has no sign. -/
@[simp] theorem negative_ofNat (n : Nat) : (ofNat f n).negative = false := negative_round ..

/-- The sign of a product. -/
theorem negative_mul {a b : Word f} (ha : a.isFinite) (hb : b.isFinite) :
    (a.mul b).negative = (a.negative != b.negative) := by
  rw [mul_of_isFinite ha hb, Format.negative_roundScaled]

/-- The sign of a quotient. -/
theorem negative_div {a b : Word f} (ha : a.isFinite) (hb : b.isFinite) (hne : b.magnitude ≠ 0) :
    (a.div b).negative = (a.negative != b.negative) := by
  rw [div_of_isFinite ha hb hne, negative_round]

namespace Rounds

variable {w v : Word f} {q : ℚ} {n : Nat}

/-- The sign aside, a finite word is the one that its number is rounded to. -/
theorem magnitude_eq_iff (h : w.Rounds q) (hf : 0 < f.fractionBits) (hn : n < f.infinity) :
    w.magnitude = n ↔ f.RoundsTo n q := by
  obtain ⟨negative, num, den, hden, rfl, rfl⟩ := h
  exact Format.magnitude_round_eq_iff hden hf hn negative

/-- Two rounded forms of a number have the same magnitude, if one of them is finite. -/
theorem magnitude_eq (h : w.Rounds q) (h' : v.Rounds q) (hf : 0 < f.fractionBits)
    (hv : v.isFinite) : w.magnitude = v.magnitude := by
  have hlt : v.magnitude < f.infinity := of_decide_eq_true hv
  rw [h.magnitude_eq_iff hf hlt, ← h'.magnitude_eq_iff hf hlt]

/-- A number that is not subnormal, and not beyond the finite ones, is moved by at most a half in
its last place. -/
theorem near (h : w.Rounds q) (hf : 0 < f.fractionBits) (hn : n < f.infinity)
    (hlow : 2 ^ (f.minExponent + f.fractionBits) ≤ q) (hhigh : q ≤ f.number n) :
    w.isFinite ∧ |f.number w.magnitude - q| ≤ q / 2 ^ (f.fractionBits + 1) := by
  obtain ⟨negative, num, den, hden, rfl, rfl⟩ := h
  obtain ⟨hlt, hnear⟩ := Format.round_near hden hf hn hlow hhigh negative
  exact ⟨decide_eq_true hlt, hnear⟩

/-- An integer with no more bits than a significand, at an exponent of the format, is kept. -/
theorem eq_scaled {m : Nat} {e : Int} (h : w.Rounds (m * 2 ^ e)) (hf : 0 < f.fractionBits)
    (hbits : 2 ≤ f.exponentBits) (hm : m < 2 ^ (f.fractionBits + 1)) (he : f.minExponent ≤ e)
    (hlt : (m : ℚ) * 2 ^ e < 2 ^ (f.maxExponent + 1)) :
    w.isFinite ∧ f.number w.magnitude = m * 2 ^ e := by
  have hunit : f.unit m e ≤ e := by
    have hlog : m.log2 ≤ f.fractionBits := by
      by_cases hzero : m = 0
      · simp [hzero]
      · exact Nat.le_of_lt_succ ((Nat.log2_lt hzero).mpr hm)
    rw [Format.unit]
    omega
  have hfinite : (f.roundScaled false m e).isFinite :=
    (Format.roundScaled_exact hbits hunit hlt).1
  have hexact : (f.roundScaled false m e).toRat = Exact.signed false m * 2 ^ e :=
    (Format.roundScaled_exact hbits hunit hlt).2
  have hnumber := abs_toRat_of_isFinite hfinite
  rw [hexact, significand_mul_zpow] at hnumber
  have hmagnitude := h.magnitude_eq (rounds_roundScaled false m e) hf hfinite
  rw [isFinite, hmagnitude, ← hnumber]
  exact ⟨hfinite, by simp [Exact.signed]⟩

end Rounds

end IndexedCodebook.Word
