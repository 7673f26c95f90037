import IndexedCodebook.Binary.Arithmetic
import IndexedCodebook.Proofs.Binary.Rounding

/-!
# Conversions between formats

The magnitude of a word is its significand and, in units of the smallest normal number's fraction,
its exponent (`magnitude_eq`), and the two can be read off a magnitude of that form
(`significand_of_magnitude`). From it follow the two kinds of conversion: to a format with the same
exponents and a shorter fraction the magnitude is rounded as an integer (`convert_of_shorter`), and
double precision holds every single-precision word exactly (`convert_toDouble`).
-/

namespace IndexedCodebook.Word

open Format

variable {f g : Format}

/-- No exponent is below that of the subnormal numbers. -/
theorem minExponent_le_exponent (w : Word f) : f.minExponent ≤ w.exponent := by
  rw [exponent]
  omega

/-- The magnitude counts the words below a word: those of lower exponents, then its significand. -/
theorem magnitude_eq (w : Word f) :
    w.magnitude =
      w.significand + (w.exponent - f.minExponent).toNat * 2 ^ f.fractionBits := by
  have hdiv := Nat.div_add_mod' w.magnitude (2 ^ f.fractionBits)
  have hplace : (w.exponent - f.minExponent).toNat = w.magnitude / 2 ^ f.fractionBits - 1 := by
    rw [exponent]
    omega
  rw [hplace, significand]
  split
  · next h => simp [h]
  · next h =>
    obtain ⟨n, hn⟩ := Nat.exists_eq_succ_of_ne_zero h
    rw [hn, Nat.succ_mul] at hdiv
    rw [hn, Nat.succ_sub_one]
    omega

/-- A word of the lowest exponent is subnormal, or its significand has a leading one. -/
theorem subnormal_or_normal (w : Word f) :
    w.exponent = f.minExponent ∧ w.significand < 2 ^ f.fractionBits ∨
      2 ^ f.fractionBits ≤ w.significand ∧ w.significand < 2 ^ (f.fractionBits + 1) := by
  have hpos := Nat.two_pow_pos f.fractionBits
  have hmod := Nat.mod_lt w.magnitude hpos
  rw [Nat.pow_succ, significand, exponent]
  split
  · next h =>
    have hlt := (Nat.div_eq_zero_iff.mp h).resolve_left (Nat.pos_iff_ne_zero.mp hpos)
    exact .inl ⟨by omega, hlt⟩
  · right
    omega

/-- Significand and exponent of a magnitude of the same form. -/
theorem significand_of_magnitude {w : Word f} {s j : Nat}
    (h : w.magnitude = s + j * 2 ^ f.fractionBits)
    (hs : j = 0 ∧ s < 2 ^ f.fractionBits ∨
      2 ^ f.fractionBits ≤ s ∧ s < 2 ^ (f.fractionBits + 1)) :
    w.significand = s ∧ w.exponent = f.minExponent + j := by
  have hpos := Nat.two_pow_pos f.fractionBits
  rcases hs with ⟨rfl, hs⟩ | ⟨hle, hlt⟩
  · rw [Nat.zero_mul, Nat.add_zero] at h
    simp [significand, exponent, h, Nat.div_eq_of_lt hs]
  · obtain ⟨r, rfl⟩ := Nat.exists_eq_add_of_le hle
    have hr : r < 2 ^ f.fractionBits := by
      rw [Nat.pow_succ] at hlt
      omega
    have hm : w.magnitude = r + (j + 1) * 2 ^ f.fractionBits := by
      rw [h, Nat.succ_mul]
      omega
    have hdiv : w.magnitude / 2 ^ f.fractionBits = j + 1 := by
      rw [hm, Nat.add_mul_div_right _ _ hpos, Nat.div_eq_of_lt hr, Nat.zero_add]
    have hmod : w.magnitude % 2 ^ f.fractionBits = r := by
      rw [hm, Nat.add_mul_mod_self_right, Nat.mod_eq_of_lt hr]
    rw [significand, exponent, hdiv, hmod, if_neg (Nat.succ_ne_zero j)]
    omega

/-- A finite word is a number. -/
theorem isNaN_of_isFinite {w : Word f} (h : w.isFinite) : w.isNaN = false := by
  have hlt : w.magnitude < f.infinity := of_decide_eq_true h
  exact decide_eq_false (by omega)

/-- An infinity is not finite. -/
theorem not_isFinite_infinite (negative : Bool) : ¬ (infinite negative : Word f).isFinite := by
  simp [isFinite, infinite]

/-- A word that is neither finite nor not a number is an infinity. -/
theorem eq_infinite {w : Word f} (hnan : ¬ w.isNaN) (h : ¬ w.isFinite) :
    w = infinite w.negative := by
  have hmag : w.magnitude = f.infinity := by
    simp only [isNaN, isFinite, decide_eq_true_eq] at hnan h
    omega
  exact Word.ext rfl hmag

/-- What is not a number is rounded to the word of all ones, which is no number if there is a
fraction. -/
theorem isNaN_toWord_nan (hf : 0 < f.fractionBits) : (Exact.nan.toWord f).isNaN = true := by
  have hpow : 2 ^ 1 ≤ 2 ^ f.fractionBits := Nat.pow_le_pow_right Nat.two_pos hf
  have hinfinity : f.infinity + 2 ^ f.fractionBits = 2 ^ f.magnitudeBits := by
    rw [infinity, magnitudeBits, Nat.pow_add, ← Nat.succ_mul]
    congr 1
    have hpos := Nat.two_pow_pos f.exponentBits
    omega
  apply decide_eq_true
  show f.infinity < 2 ^ f.magnitudeBits - 1
  omega

/-- A word that is not a number has no value. -/
theorem value_of_isNaN {w : Word f} (h : w.isNaN = true) : w.value = .nan := by
  rw [value, if_pos h]

/-- An infinity is neither finite nor not a number. -/
theorem value_infinite (negative : Bool) :
    (infinite negative : Word f).value = .infinite negative := by
  simp [value, infinite, isNaN, isFinite]

/-- A word that is neither finite nor not a number is an infinity. -/
theorem value_of_not_isFinite {w : Word f} (hnan : ¬ w.isNaN) (h : ¬ w.isFinite) :
    w.value = .infinite w.negative := by
  rw [value, if_neg hnan, if_neg h]

/-- A finite word stands for its significand at its exponent. -/
theorem value_of_isFinite {w : Word f} (h : w.isFinite) :
    w.value = .finite w.negative w.significand w.exponent := by
  have hnan : ¬ w.isNaN := by
    simp only [isFinite, isNaN, decide_eq_true_eq] at h ⊢
    omega
  rw [value, if_neg hnan, if_pos h]

/-- A finite word is converted by rounding its significand at its exponent. -/
theorem convert_of_isFinite {w : Word f} (h : w.isFinite) :
    w.convert g = g.roundScaled w.negative w.significand w.exponent := by
  rw [convert, value_of_isFinite h, Exact.toWord]

/-- A significand has at most one bit more than a fraction. -/
theorem significand_lt (w : Word f) : w.significand < 2 ^ (f.fractionBits + 1) := by
  rcases w.subnormal_or_normal with ⟨-, h⟩ | ⟨-, h⟩
  · rw [Nat.pow_succ]
    omega
  · exact h

/-- So its leading bit is at most that of a normal number. -/
theorem log2_significand_le (w : Word f) : w.significand.log2 ≤ f.fractionBits := by
  by_cases hm : w.significand = 0
  · simp [hm]
  · exact Nat.le_of_lt_succ ((Nat.log2_lt hm).mpr w.significand_lt)

/-- The word of magnitude zero is zero. -/
@[simp] theorem saturated_zero (negative : Bool) :
    (saturated negative 0 : Word f) = zero negative :=
  Word.ext rfl (Nat.zero_min f.infinity)

/-- Saturated magnitudes are numbers. -/
theorem isNaN_saturated (negative : Bool) (n : Nat) :
    (saturated negative n : Word f).isNaN = false :=
  decide_eq_false (Nat.not_lt.mpr (Nat.min_le_right ..))

/-- Magnitudes up to the infinity are not changed by saturation. -/
theorem saturated_inj {negative : Bool} {a b : Nat} (ha : a ≤ f.infinity) (hb : b ≤ f.infinity) :
    (saturated negative a : Word f) = saturated negative b ↔ a = b := by
  simp [saturated, Nat.min_eq_left ha, Nat.min_eq_left hb]

/-- A word whose significand is zero is zero. -/
theorem magnitude_eq_zero {w : Word f} (h : w.significand = 0) : w.magnitude = 0 := by
  have hpos := Nat.two_pow_pos f.fractionBits
  rw [w.magnitude_eq, h]
  rcases w.subnormal_or_normal with ⟨hj, -⟩ | ⟨hle, -⟩
  · simp [hj]
  · omega

private theorem unit_of_shorter {w : Word f} {dropped : Nat} (hm : w.significand ≠ 0)
    (he : f.exponentBits = g.exponentBits) (hf : f.fractionBits = g.fractionBits + dropped) :
    g.minExponent = f.minExponent + dropped ∧
      g.unit w.significand w.exponent = w.exponent + dropped := by
  have hmin : g.minExponent = f.minExponent + dropped := by
    rw [minExponent, minExponent, he, hf]
    omega
  have hle := w.minExponent_le_exponent
  refine ⟨hmin, ?_⟩
  rw [unit]
  rcases w.subnormal_or_normal with ⟨hj, hlt⟩ | ⟨hpos, hlt⟩
  · have hlog := (Nat.log2_lt hm).mpr hlt
    omega
  · have hlog := (Nat.log2_eq_iff hm).mpr ⟨hpos, hlt⟩
    omega

/-- To a format with the same exponents and a shorter fraction, a magnitude is rounded as an
integer. -/
theorem convert_of_shorter {w : Word f} {dropped : Nat} (h : w.isFinite)
    (he : f.exponentBits = g.exponentBits) (hf : f.fractionBits = g.fractionBits + dropped)
    (hg : 0 < g.fractionBits) :
    w.convert g = saturated w.negative (roundDiv w.magnitude (2 ^ dropped)) := by
  rw [convert_of_isFinite h]
  by_cases hm : w.significand = 0
  · rw [hm, magnitude_eq_zero hm, roundScaled_zero, roundDiv_zero, saturated_zero]
  obtain ⟨hmin, hunit⟩ := unit_of_shorter hm he hf
  have hkept : (w.exponent - (w.exponent + dropped)).toNat = 0 := by omega
  have hcut : (w.exponent + dropped - w.exponent).toNat = dropped := by omega
  have hplace : (w.exponent + dropped - g.minExponent).toNat =
      (w.exponent - f.minExponent).toNat := by omega
  -- The exponents add an even number of units, so they do not change where a tie goes.
  obtain ⟨k, hk⟩ := Nat.exists_eq_succ_of_ne_zero (Nat.pos_iff_ne_zero.mp hg)
  have hunits : w.magnitude =
      w.significand + 2 * ((w.exponent - f.minExponent).toNat * 2 ^ k) * 2 ^ dropped := by
    rw [w.magnitude_eq, hf, hk]
    grind
  rw [roundScaled_eq _ hm, hunit, hkept, hcut, hplace, Nat.pow_zero, Nat.mul_one, hunits,
    roundDiv_add_mul _ _ (Nat.two_pow_pos dropped), hk]
  grind

private theorem subnormal_or_normal_of_unit_le {m : Nat} {e : Int} (hm : m ≠ 0)
    (h : f.unit m e ≤ e) :
    (f.unit m e - f.minExponent).toNat = 0 ∧
        m * 2 ^ (e - f.unit m e).toNat < 2 ^ f.fractionBits ∨
      2 ^ f.fractionBits ≤ m * 2 ^ (e - f.unit m e).toNat ∧
        m * 2 ^ (e - f.unit m e).toNat < 2 ^ (f.fractionBits + 1) := by
  have hlog := log2_mul_two_pow hm (e - f.unit m e).toNat
  have hs : m * 2 ^ (e - f.unit m e).toNat ≠ 0 :=
    Nat.mul_ne_zero hm (Nat.pos_iff_ne_zero.mp (Nat.two_pow_pos _))
  generalize m * 2 ^ (e - f.unit m e).toNat = s at hlog hs ⊢
  rw [unit] at hlog h ⊢
  rcases Int.le_total f.minExponent (m.log2 + e - f.fractionBits) with hle | hle
  · exact .inr ((Nat.log2_eq_iff hs).mp (by omega))
  · rcases Int.le_iff_lt_or_eq.mp hle with hlt | heq
    · exact .inl ⟨by omega, (Nat.log2_lt hs).mp (by omega)⟩
    · exact .inr ((Nat.log2_eq_iff hs).mp (by omega))

private theorem value_roundScaled {negative : Bool} {m : Nat} {e : Int} (hm : m ≠ 0)
    (h : f.unit m e ≤ e) (hlt : m * 2 ^ (e - f.unit m e).toNat +
      (f.unit m e - f.minExponent).toNat * 2 ^ f.fractionBits < f.infinity) :
    (f.roundScaled negative m e).value =
      .finite negative (m * 2 ^ (e - f.unit m e).toNat) (f.unit m e) := by
  have hmagnitude : (f.roundScaled negative m e).magnitude =
      m * 2 ^ (e - f.unit m e).toNat +
        (f.unit m e - f.minExponent).toNat * 2 ^ f.fractionBits := by
    rw [roundScaled_of_unit_le _ hm h]
    exact Nat.min_eq_left (Nat.le_of_lt hlt)
  obtain ⟨hsignificand, hexponent⟩ :=
    significand_of_magnitude hmagnitude (subnormal_or_normal_of_unit_le hm h)
  have hfinite : (f.roundScaled negative m e).isFinite := by
    rw [isFinite, hmagnitude]
    exact decide_eq_true hlt
  have hnegative : (f.roundScaled negative m e).negative = negative := by
    rw [roundScaled_of_unit_le _ hm h, saturated]
  have hunit : f.minExponent + (f.unit m e - f.minExponent).toNat = f.unit m e := by
    have hle : f.minExponent ≤ f.unit m e := Int.le_max_left ..
    omega
  rw [value_of_isFinite hfinite, hsignificand, hexponent, hnegative, hunit]

end IndexedCodebook.Word

namespace IndexedCodebook.Single

open Format Word

variable {g : Format} {w : Single}

private theorem unit_toDouble (w : Single) :
    binary64.unit w.significand w.exponent = w.significand.log2 + w.exponent - 52 := by
  have hle := w.minExponent_le_exponent
  have hsingle : binary32.minExponent = -149 := rfl
  have hdouble : binary64.minExponent = -1074 := rfl
  rw [unit, hdouble]
  simp only [binary64]
  omega

private theorem unit_toDouble_le (w : Single) :
    binary64.unit w.significand w.exponent ≤ w.exponent := by
  have hlog : w.significand.log2 ≤ 23 := log2_significand_le w
  rw [unit_toDouble]
  omega

private theorem log2_add_exponent_lt (h : w.isFinite) : w.significand.log2 + w.exponent < 128 := by
  have hmin : binary32.minExponent = -149 := rfl
  have hfraction : binary32.fractionBits = 23 := rfl
  have hlt : w.magnitude < 255 * 2 ^ 23 := of_decide_eq_true h
  have hmagnitude := w.magnitude_eq
  have hle := w.minExponent_le_exponent
  have hlog : w.significand.log2 ≤ 23 := log2_significand_le w
  rcases w.subnormal_or_normal with ⟨hj, -⟩ | ⟨hs, -⟩
  · omega
  · rw [hfraction] at hmagnitude hs
    omega

private theorem magnitude_toDouble_lt (h : w.isFinite) :
    w.significand * 2 ^ (52 - w.significand.log2) +
      (w.significand.log2 + w.exponent + 1022).toNat * 2 ^ 52 < binary64.infinity := by
  have hlead := log2_add_exponent_lt h
  have hlog : w.significand.log2 ≤ 23 := log2_significand_le w
  have hscaled : w.significand * 2 ^ (52 - w.significand.log2) < 2 ^ 53 := by
    have hsplit : 2 ^ 53 = 2 ^ (w.significand.log2 + 1) * 2 ^ (52 - w.significand.log2) := by
      rw [← Nat.pow_add]
      congr 1
      omega
    rw [hsplit]
    exact Nat.mul_lt_mul_of_pos_right Nat.lt_log2_self (Nat.two_pow_pos _)
  have hinfinity : binary64.infinity = 2047 * 2 ^ 52 := rfl
  omega

private theorem scaled_toDouble (w : Single) :
    w.significand * 2 ^ (w.exponent - binary64.unit w.significand w.exponent).toNat +
        (binary64.unit w.significand w.exponent - binary64.minExponent).toNat *
          2 ^ binary64.fractionBits =
      w.significand * 2 ^ (52 - w.significand.log2) +
        (w.significand.log2 + w.exponent + 1022).toNat * 2 ^ 52 := by
  have hdouble : binary64.minExponent = -1074 := rfl
  have hshift : (w.exponent - (w.significand.log2 + w.exponent - 52)).toNat =
      52 - w.significand.log2 := by omega
  have hplace : (w.significand.log2 + w.exponent - 52 - -1074).toNat =
      (w.significand.log2 + w.exponent + 1022).toNat := by omega
  rw [unit_toDouble, hdouble, hshift, hplace]
  rfl

/-- The magnitude of a single-precision number in double precision. -/
theorem magnitude_toDouble (h : w.isFinite) (hm : w.significand ≠ 0) :
    w.toDouble.magnitude = w.significand * 2 ^ (52 - w.significand.log2) +
      (w.significand.log2 + w.exponent + 1022).toNat * 2 ^ 52 := by
  rw [toDouble, convert_of_isFinite h, roundScaled_of_unit_le _ hm (unit_toDouble_le w),
    scaled_toDouble]
  exact Nat.min_eq_left (Nat.le_of_lt (magnitude_toDouble_lt h))

/-- Zero keeps its sign in double precision. -/
theorem toDouble_eq_zero (h : w.isFinite) (hm : w.significand = 0) :
    w.toDouble = Word.zero w.negative := by
  rw [toDouble, convert_of_isFinite h, hm, roundScaled_zero]

/-- A finite number keeps its sign in double precision. -/
theorem negative_toDouble (h : w.isFinite) : w.toDouble.negative = w.negative := by
  by_cases hm : w.significand = 0
  · rw [toDouble_eq_zero h hm]
    rfl
  · rw [toDouble, convert_of_isFinite h, roundScaled_of_unit_le _ hm (unit_toDouble_le w)]
    rfl

/-- Double precision holds every single-precision word exactly. -/
theorem convert_toDouble (w : Single) : w.toDouble.convert g = w.convert g := by
  by_cases h : w.isFinite
  · by_cases hm : w.significand = 0
    · have hzero : (Word.zero w.negative : Double).significand = 0 := by
        simp [significand, Word.zero]
      rw [toDouble_eq_zero h hm, convert_of_isFinite h, convert_of_isFinite (by rfl), hm, hzero,
        roundScaled_zero, roundScaled_zero]
      rfl
    · rw [toDouble, convert_of_isFinite h, convert_of_isFinite h]
      have hlt := magnitude_toDouble_lt h
      rw [← scaled_toDouble] at hlt
      rw [convert, value_roundScaled hm (unit_toDouble_le w) hlt, Exact.toWord,
        roundScaled_mul_two_pow]
      congr 1
      have := unit_toDouble_le w
      omega
  · by_cases hnan : w.isNaN
    · have hvalue : (nan : Double).value = .nan := by decide
      rw [toDouble, convert, convert, convert, value_of_isNaN hnan, Exact.toWord, hvalue]
    · rw [toDouble, convert, convert, convert, value_of_not_isFinite hnan h, Exact.toWord,
        value_infinite]

end IndexedCodebook.Single
