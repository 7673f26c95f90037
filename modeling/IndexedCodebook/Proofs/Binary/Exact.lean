import IndexedCodebook.Proofs.Binary.Closest

/-!
# Values that formats share

`Exact.Same` compares the values of words of any formats. Rounding depends on nothing but the value
(`Exact.Same.toWord_eq`) and gives a word back from its own (`Word.toWord_value`). So a value that a
format holds (`Word.HeldBy`) is not changed by a conversion to it (`Word.HeldBy.same_convert`), and
a product with one is the other factor (`Single.mul_one`).
-/

namespace IndexedCodebook

/-- The same value: the same number with the same sign, the same infinity, or no number both. -/
inductive Exact.Same : Exact → Exact → Prop
  | nan : Same .nan .nan
  | infinite (negative : Bool) : Same (.infinite negative) (.infinite negative)
  | finite {negative : Bool} {m m' : Nat} {e e' : Int} (h : (m : ℚ) * 2 ^ e = m' * 2 ^ e') :
      Same (.finite negative m e) (.finite negative m' e')

namespace Exact.Same

variable {x y z : Exact}

/-- Every value is the same as itself. -/
theorem refl (x : Exact) : x.Same x := by
  cases x with
  | nan => exact .nan
  | infinite negative => exact .infinite negative
  | finite negative m e => exact .finite rfl

/-- Being the same does not depend on the order. -/
theorem symm (h : x.Same y) : y.Same x := by
  cases h with
  | nan => exact .nan
  | infinite negative => exact .infinite negative
  | finite h => exact .finite h.symm

/-- Values that are the same as a third are the same. -/
theorem trans (h : x.Same y) (h' : y.Same z) : x.Same z := by
  cases h with
  | nan => exact h'
  | infinite negative => exact h'
  | finite h =>
    cases h' with
    | finite h' => exact .finite (h.trans h')

private theorem toWord_eq (h : x.Same y) (f : Format) : x.toWord f = y.toWord f := by
  cases h with
  | nan => rfl
  | infinite negative => rfl
  | finite h => exact Format.roundScaled_congr h

private theorem eq_nan_iff (h : x.Same y) : x = .nan ↔ y = .nan := by
  cases h with
  | nan => exact Iff.rfl
  | infinite negative => simp
  | finite h => simp

/-- A product with one has the value of the other factor. -/
theorem mul_one (x : Exact) {m : Nat} {e : Int} (h : (m : ℚ) * 2 ^ e = 1) :
    (x.mul (.finite false m e)).Same x := by
  have hm : m ≠ 0 := by
    rintro rfl
    rw [Nat.cast_zero, zero_mul] at h
    exact zero_ne_one h
  cases x with
  | nan => exact .nan
  | infinite negative =>
    rw [mul, if_neg hm, Bool.bne_false]
    exact .infinite negative
  | finite negative n k =>
    rw [mul, Bool.bne_false]
    apply Same.finite
    rw [Nat.cast_mul, zpow_add₀ two_ne_zero, mul_mul_mul_comm, h]
    exact MulOneClass.mul_one _

end Exact.Same

namespace Word

variable {f g : Format} {w : Word f} {v : Word g}

private theorem value_eq_nan_iff : w.value = .nan ↔ w.isNaN := by
  constructor
  · intro h
    by_contra hnan
    by_cases hfinite : w.isFinite
    · rw [value_of_isFinite hfinite] at h
      cases h
    · rw [value_of_not_isFinite hnan hfinite] at h
      cases h
  · exact value_of_isNaN

/-- A word with the value of a word that is a number is a number. -/
theorem isNaN_eq_of_same (h : w.value.Same v.value) : w.isNaN = v.isNaN := by
  rw [Bool.eq_iff_iff, ← value_eq_nan_iff, ← value_eq_nan_iff]
  exact h.eq_nan_iff

private theorem isFinite_iff_value :
    w.isFinite ↔ ∃ negative m e, w.value = .finite negative m e := by
  constructor
  · intro h
    exact ⟨_, _, _, value_of_isFinite h⟩
  · rintro ⟨negative, m, e, h⟩
    by_contra hfinite
    by_cases hnan : w.isNaN
    · rw [value_of_isNaN hnan] at h
      cases h
    · rw [value_of_not_isFinite hnan hfinite] at h
      cases h

private theorem isFinite_of_same (h : w.value.Same v.value) (hv : v.isFinite) : w.isFinite := by
  obtain ⟨negative, m, e, hvalue⟩ := isFinite_iff_value.mp hv
  rw [hvalue] at h
  rw [isFinite_iff_value]
  generalize w.value = x at h
  cases h
  exact ⟨_, _, _, rfl⟩

private theorem toWord_value (hf : 0 < f.fractionBits) (h : w.isNaN = false) :
    w.value.toWord f = w := by
  by_cases hfinite : w.isFinite
  · rw [value_of_isFinite hfinite, Exact.toWord, roundScaled_significand hf hfinite]
  · rw [value_of_not_isFinite (ne_true_of_eq_false h) hfinite, Exact.toWord,
      ← eq_infinite (ne_true_of_eq_false h) hfinite]

/-- Words of a format with the same value are the same, unless they are not numbers. -/
theorem eq_of_same {w v : Word f} (hf : 0 < f.fractionBits) (h : w.value.Same v.value)
    (hnan : w.isNaN = false) : w = v := by
  rw [← toWord_value hf hnan, h.toWord_eq, toWord_value hf (isNaN_eq_of_same h ▸ hnan)]

private theorem same_of_toRat (hw : w.isFinite) (hv : v.isFinite)
    (hnegative : w.negative = v.negative) (h : w.toRat = v.toRat) : w.value.Same v.value := by
  rw [value_of_isFinite hw, value_of_isFinite hv, hnegative]
  apply Exact.Same.finite
  rw [← abs_toRat_of_isFinite hw, ← abs_toRat_of_isFinite hv, h]

/-- A format has a word with the value of a word. -/
def HeldBy (g : Format) (w : Word f) : Prop := ∃ v : Word g, v.value.Same w.value

/-- Conversion to a format that holds a value does not change it. -/
theorem HeldBy.same_convert (hg : 0 < g.fractionBits) (h : w.HeldBy g) :
    (w.convert g).value.Same w.value := by
  obtain ⟨v, hv⟩ := h
  rw [convert, ← hv.toWord_eq]
  cases hnan : v.isNaN with
  | false =>
    rw [toWord_value hg hnan]
    exact hv
  | true =>
    rw [value_of_isNaN hnan] at hv ⊢
    rw [value_of_isNaN (isNaN_toWord_nan hg)]
    exact hv

/-- Words with the same value are held by the same formats. -/
theorem HeldBy.of_same {k : Format} (h : w.HeldBy k) (hwv : w.value.Same v.value) : v.HeldBy k := by
  obtain ⟨u, hu⟩ := h
  exact ⟨u, hu.trans hwv⟩

/-- A format holds the value of its own words. -/
theorem heldBy_self (w : Word f) : w.HeldBy f := ⟨w, .refl _⟩

/-- A format with a fraction has a word that is not a number. -/
theorem heldBy_of_isNaN (hg : 0 < g.fractionBits) (h : w.isNaN) : w.HeldBy g := by
  refine ⟨Exact.nan.toWord g, ?_⟩
  rw [value_of_isNaN h, value_of_isNaN (isNaN_toWord_nan hg)]
  exact .nan

/-- Every format holds the infinities. -/
theorem heldBy_of_isInfinite (h : w.isInfinite) : w.HeldBy g := by
  have hmagnitude : w.magnitude = f.infinity := of_decide_eq_true h
  have hw : w = infinite w.negative := Word.ext rfl hmagnitude
  refine ⟨infinite w.negative, ?_⟩
  rw [hw, value_infinite, value_infinite]
  exact .infinite _

/-- A format holds every word of a format whose numbers are among its own. -/
theorem heldBy_of_embeds (hfg : f.Embeds g) (hg : 0 < g.fractionBits) (w : Word f) :
    w.HeldBy g := by
  by_cases hfinite : w.isFinite
  · obtain ⟨hconvert, hrat⟩ := toRat_convert hfg hfinite
    refine ⟨w.convert g, same_of_toRat hconvert hfinite ?_ hrat⟩
    rw [convert_of_isFinite hfinite, Format.negative_roundScaled]
  · by_cases hnan : w.isNaN
    · exact heldBy_of_isNaN hg hnan
    · rw [eq_infinite hnan hfinite]
      exact heldBy_of_isInfinite (decide_eq_true rfl)

/-- In a format with the same exponents and a longer fraction, the same number has the longer
magnitude. -/
theorem magnitude_of_same {dropped : Nat} (he : f.exponentBits = g.exponentBits)
    (hfraction : f.fractionBits = g.fractionBits + dropped) (hf : 0 < f.fractionBits)
    (h : v.value.Same w.value) (hw : w.isFinite) : w.magnitude = v.magnitude * 2 ^ dropped := by
  have hv : v.isFinite := isFinite_of_same h hw
  have hpos := Nat.two_pow_pos dropped
  have hmin : f.minExponent + dropped = g.minExponent := by
    rw [Format.minExponent, Format.minExponent, he, hfraction]
    omega
  have hbits : v.magnitude * 2 ^ dropped < 2 ^ f.magnitudeBits := by
    have hsplit : f.magnitudeBits = g.magnitudeBits + dropped := by
      rw [Format.magnitudeBits, Format.magnitudeBits, he, hfraction, Nat.add_assoc]
    rw [hsplit, Nat.pow_add]
    exact Nat.mul_lt_mul_of_pos_right v.magnitude_lt hpos
  let longer : Word f := ⟨v.negative, v.magnitude * 2 ^ dropped, hbits⟩
  have hfinite : longer.isFinite := by
    have hinfinity : f.infinity = g.infinity * 2 ^ dropped := by
      rw [Format.infinity, Format.infinity, he, hfraction, Nat.pow_add, Nat.mul_assoc]
    apply decide_eq_true
    rw [hinfinity]
    exact Nat.mul_lt_mul_of_pos_right (of_decide_eq_true hv) hpos
  have hmagnitude : longer.magnitude = v.significand * 2 ^ dropped +
      (v.exponent - g.minExponent).toNat * 2 ^ f.fractionBits := by
    show v.magnitude * 2 ^ dropped = _
    rw [v.magnitude_eq, hfraction, Nat.add_mul, Nat.pow_add, Nat.mul_assoc]
  obtain ⟨hsignificand, hexponent⟩ := significand_of_magnitude hmagnitude (by
    rw [hfraction, Nat.add_right_comm, Nat.pow_add, Nat.pow_add, Nat.mul_lt_mul_right hpos,
      Nat.mul_lt_mul_right hpos, Nat.mul_le_mul_right_iff hpos]
    rcases v.subnormal_or_normal with ⟨hj, hlt⟩ | hnormal
    · exact .inl ⟨by omega, hlt⟩
    · exact .inr hnormal)
  have hsame : longer.value.Same v.value := by
    have hmin' := v.minExponent_le_exponent
    have hplace : v.exponent = dropped + longer.exponent := by omega
    rw [value_of_isFinite hfinite, value_of_isFinite hv, hsignificand, hplace]
    apply Exact.Same.finite
    rw [zpow_add₀ two_ne_zero, zpow_natCast]
    push_cast
    ring
  rw [← eq_of_same hf (hsame.trans h) (isNaN_of_isFinite hfinite)]

/-- A natural number with no more bits than a significand is not rounded. -/
theorem toRat_ofNat {n : Nat} (hf : 2 ≤ f.exponentBits) (hmin : f.minExponent ≤ 0)
    (hmax : f.fractionBits ≤ f.maxExponent) (hn : n < 2 ^ (f.fractionBits + 1)) :
    (ofNat f n).isFinite ∧ (ofNat f n).toRat = n := by
  have hscaled : ofNat f n = f.roundScaled false n 0 := by
    simp [ofNat, Format.roundScaled]
  have hunit : f.unit n 0 ≤ 0 := by
    have hlog : n.log2 ≤ f.fractionBits := by
      by_cases hzero : n = 0
      · simp [hzero]
      · exact Nat.le_of_lt_succ ((Nat.log2_lt hzero).mpr hn)
    rw [Format.unit]
    omega
  have hlt : (n : ℚ) * 2 ^ (0 : Int) < 2 ^ (f.maxExponent + 1) := by
    have hcast : (n : ℚ) < 2 ^ ((f.fractionBits + 1 : Nat) : Int) := by exact_mod_cast hn
    rw [zpow_zero, MulOneClass.mul_one]
    exact hcast.trans_le (zpow_le_zpow_right₀ one_le_two (by omega))
  obtain ⟨hfinite, hrat⟩ := Format.roundScaled_exact hf hunit hlt
  rw [hscaled]
  refine ⟨hfinite, hrat.trans ?_⟩
  simp [Exact.signed]

end Word

/-- A product with `1.0` is the other factor, bit for bit. -/
theorem Single.mul_one {w : Single} (h : w.isNaN = false) : w.mul (Word.ofNat binary32 1) = w := by
  have hone : (Word.ofNat binary32 1).value = .finite false (2 ^ 23) (-23) := by decide +kernel
  rw [Word.mul, hone, (Exact.Same.mul_one w.value (by norm_num)).toWord_eq,
    Word.toWord_value (by decide) h]

/-- The bits of `1.0`. -/
example : (Word.ofNat binary32 1).toBits = 0x3f800000 := by decide +kernel

end IndexedCodebook
