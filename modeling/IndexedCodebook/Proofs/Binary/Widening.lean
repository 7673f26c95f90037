import IndexedCodebook.Proofs.Binary.Nearest

/-!
# Formats that hold all numbers of another

A format with a longer fraction and a wider range (`Format.Embeds`) holds every finite word of
another without rounding (`Word.toRat_convert`), and a finite word is the word of its own number
(`Word.roundScaled_significand`). Double precision also holds the product of any two finite
single-precision words (`Single.toRat_mul_toDouble`).
-/

namespace IndexedCodebook

/-- The numbers of `f` are among those of `g`. -/
structure Format.Embeds (f g : Format) : Prop where
  two_le : 2 ≤ f.exponentBits ∧ 2 ≤ g.exponentBits
  fractionBits : f.fractionBits ≤ g.fractionBits
  minExponent : g.minExponent ≤ f.minExponent
  maxExponent : f.maxExponent ≤ g.maxExponent

namespace Word

variable {f g : Format} {w : Word f}

/-- A finite word lies below the power of two at the end of its format. -/
theorem abs_toRat_lt (hf : 2 ≤ f.exponentBits) (h : w.isFinite) :
    |w.toRat| < 2 ^ (f.maxExponent + 1) := by
  have hmag : w.magnitude < (2 ^ f.exponentBits - 1) * 2 ^ f.fractionBits := of_decide_eq_true h
  have hfour : 2 ^ 2 ≤ 2 ^ f.exponentBits := Nat.pow_le_pow_right two_pos hf
  have hcast : ((2 ^ f.exponentBits : Nat) : Int) = 2 ^ f.exponentBits := by push_cast; rfl
  have hfield := (Nat.div_lt_iff_lt_mul (Nat.two_pow_pos f.fractionBits)).mpr hmag
  have hexponent : ((f.fractionBits + 1 : Nat) : Int) + w.exponent ≤ f.maxExponent + 1 := by
    rw [exponent, Format.maxExponent]
    omega
  have hsignificand : (w.significand : ℚ) < 2 ^ (f.fractionBits + 1) := by
    exact_mod_cast w.significand_lt
  rw [abs_toRat_of_isFinite h]
  calc (w.significand : ℚ) * 2 ^ w.exponent < 2 ^ (f.fractionBits + 1) * 2 ^ w.exponent := by
        gcongr
    _ = 2 ^ (((f.fractionBits + 1 : Nat) : Int) + w.exponent) := by
        rw [zpow_add₀ two_ne_zero, zpow_natCast]
    _ ≤ 2 ^ (f.maxExponent + 1) := zpow_le_zpow_right₀ one_le_two hexponent

/-- Converting a finite word to a format that holds it does not change its number. -/
theorem toRat_convert (hfg : f.Embeds g) (h : w.isFinite) :
    (w.convert g).isFinite ∧ (w.convert g).toRat = w.toRat := by
  have hunit : g.unit w.significand w.exponent ≤ w.exponent := by
    have hlog := w.log2_significand_le
    have hmin := w.minExponent_le_exponent
    have hg := hfg.minExponent
    have hfraction := hfg.fractionBits
    rw [Format.unit]
    omega
  have hlt : (w.significand : ℚ) * 2 ^ w.exponent < 2 ^ (g.maxExponent + 1) := by
    have hmax := hfg.maxExponent
    rw [← abs_toRat_of_isFinite h]
    exact (abs_toRat_lt hfg.two_le.1 h).trans_le (zpow_le_zpow_right₀ one_le_two (by omega))
  rw [convert_of_isFinite h, toRat_of_isFinite h]
  exact Format.roundScaled_exact hfg.two_le.2 hunit hlt

/-- A finite word is the word of its own number. -/
theorem roundScaled_significand (hf : 0 < f.fractionBits) (h : w.isFinite) :
    f.roundScaled w.negative w.significand w.exponent = w := by
  rw [← convert_of_isFinite h, convert_of_shorter h rfl (Nat.add_zero _).symm hf]
  have hmag : w.magnitude < f.infinity := of_decide_eq_true h
  have hone := roundDiv_mul_right w.magnitude Nat.one_pos
  rw [Nat.mul_one] at hone
  rw [Nat.pow_zero, hone]
  exact Word.ext rfl (Nat.min_eq_left hmag.le)

/-- Numbers up to a finite word are rounded to magnitudes up to its own. -/
theorem magnitude_roundScaled_le (hf : 0 < f.fractionBits) (h : w.isFinite) {negative : Bool}
    {m : Nat} {e : Int} (hle : (m : ℚ) * 2 ^ e ≤ |w.toRat|) :
    (f.roundScaled negative m e).magnitude ≤ w.magnitude := by
  rw [abs_toRat_of_isFinite h] at hle
  calc (f.roundScaled negative m e).magnitude
      ≤ (f.roundScaled w.negative w.significand w.exponent).magnitude :=
        Format.magnitude_roundScaled_le hle
    _ = w.magnitude := by rw [roundScaled_significand hf h]

end Word

/-- Double precision holds single precision. -/
theorem binary32_embeds_binary64 : binary32.Embeds binary64 where
  two_le := by decide
  fractionBits := by decide
  minExponent := by decide
  maxExponent := by decide

/-- Double precision holds bfloat16. -/
theorem bfloat16_embeds_binary64 : bfloat16.Embeds binary64 where
  two_le := by decide
  fractionBits := by decide
  minExponent := by decide
  maxExponent := by decide

namespace Single

open Format Word

variable {a b : Single}

/-- A finite number is the same number in double precision. -/
theorem toRat_toDouble (ha : a.isFinite) : a.toDouble.isFinite ∧ a.toDouble.toRat = a.toRat :=
  toRat_convert binary32_embeds_binary64 ha

private theorem unit_mul_toDouble_le (a b : Single) :
    binary64.unit (a.significand * b.significand) (a.exponent + b.exponent) ≤
      a.exponent + b.exponent := by
  have hlog : (a.significand * b.significand).log2 ≤ 47 := by
    by_cases hm : a.significand * b.significand = 0
    · rw [hm]
      decide
    · have hlt : a.significand * b.significand < 2 ^ 24 * 2 ^ 24 :=
        Nat.mul_lt_mul'' a.significand_lt b.significand_lt
      rw [← Nat.pow_add] at hlt
      exact Nat.le_of_lt_succ ((Nat.log2_lt hm).mpr hlt)
  have ha := a.minExponent_le_exponent
  have hb := b.minExponent_le_exponent
  have hsingle : binary32.minExponent = -149 := rfl
  have hdouble : binary64.minExponent = -1074 := rfl
  have hfraction : binary64.fractionBits = 52 := rfl
  rw [unit]
  omega

/-- The product of two finite single-precision words is exact in double precision. -/
theorem toRat_mul_toDouble (ha : a.isFinite) (hb : b.isFinite) :
    (a.toDouble.mul b.toDouble).isFinite ∧
      (a.toDouble.mul b.toDouble).toRat = a.toRat * b.toRat := by
  obtain ⟨hfa, hra⟩ := toRat_toDouble ha
  obtain ⟨hfb, hrb⟩ := toRat_toDouble hb
  have hsize := abs_toRat_mul_toRat ha hb
  have hwide := abs_toRat_mul_toRat hfa hfb
  rw [hra, hrb, ← hsize] at hwide
  have hlt : ((a.significand * b.significand : Nat) : ℚ) * 2 ^ (a.exponent + b.exponent) <
      2 ^ (binary64.maxExponent + 1) := by
    have hbound : (2 : ℚ) ^ (binary32.maxExponent + 1) * 2 ^ (binary32.maxExponent + 1) ≤
        2 ^ (binary64.maxExponent + 1) := by
      rw [← zpow_add₀ two_ne_zero]
      exact zpow_le_zpow_right₀ one_le_two (by decide)
    rw [hsize, abs_mul]
    exact (mul_lt_mul'' (abs_toRat_lt (by decide) ha) (abs_toRat_lt (by decide) hb)
      (abs_nonneg _) (abs_nonneg _)).trans_le hbound
  -- the significands of single precision, where the product needs no more bits than it has
  rw [mul_of_isFinite hfa hfb, negative_toDouble ha, negative_toDouble hb,
    roundScaled_congr hwide, toRat_mul_toRat ha hb]
  exact roundScaled_exact (by decide) (unit_mul_toDouble_le a b) hlt

end Single

end IndexedCodebook
