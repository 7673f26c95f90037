import IndexedCodebook.Proofs.Binary.Widening

/-!
# The order of words

Words that are numbers are ordered as their magnitudes and signs say, which is the order of what
they stand for (`Word.abs_toRat_le_of_magnitude_le`). A conversion to any format keeps the order of
words (`Word.convert_le_convert`).
-/

namespace IndexedCodebook.Word

variable {f g : Format} {a b c : Word f}

/-- Words are in order exactly if both are numbers, and in order by their places. -/
theorem le_iff : a.le b = true ↔ a.isNaN = false ∧ b.isNaN = false ∧ a.rank ≤ b.rank := by
  rw [le, Bool.and_eq_true, Bool.and_eq_true, Bool.not_eq_true', Bool.not_eq_true',
    decide_eq_true_eq, and_assoc]

/-- The order of words is transitive. -/
theorem le_trans (h : a.le b = true) (h' : b.le c = true) : a.le c = true := by
  obtain ⟨ha, -, hab⟩ := le_iff.mp h
  obtain ⟨-, hc, hbc⟩ := le_iff.mp h'
  exact le_iff.mpr ⟨ha, hc, hab.trans hbc⟩

/-- Of two finite words the smaller one in size has the lower magnitude. -/
theorem magnitude_le_of_abs_toRat_le (hf : 0 < f.fractionBits) (ha : a.isFinite) (hb : b.isFinite)
    (h : |a.toRat| ≤ |b.toRat|) : a.magnitude ≤ b.magnitude := by
  rw [abs_toRat_of_isFinite ha] at h
  have hround : (f.roundScaled a.negative a.significand a.exponent).magnitude ≤ b.magnitude :=
    magnitude_roundScaled_le hf hb h
  rwa [roundScaled_significand hf ha] at hround

/-- Of two finite words the one of lower magnitude is smaller in size. -/
theorem abs_toRat_le_of_magnitude_le (hf : 0 < f.fractionBits) (ha : a.isFinite) (hb : b.isFinite)
    (h : a.magnitude ≤ b.magnitude) : |a.toRat| ≤ |b.toRat| := by
  by_contra hlt
  rw [not_le] at hlt
  have hsame : a.magnitude = b.magnitude :=
    Nat.le_antisymm h (magnitude_le_of_abs_toRat_le hf hb ha hlt.le)
  rw [abs_toRat_of_isFinite ha, abs_toRat_of_isFinite hb, significand, significand, exponent,
    exponent, hsame] at hlt
  exact hlt.false

private theorem isNaN_convert (h : a.isNaN = false) : (a.convert g).isNaN = false := by
  by_cases hfinite : a.isFinite
  · rw [convert_of_isFinite hfinite]
    by_cases hm : a.significand = 0
    · rw [hm, Format.roundScaled_zero, ← saturated_zero, isNaN_saturated]
    · rw [Format.roundScaled_eq _ hm, isNaN_saturated]
  · rw [convert, value_of_not_isFinite (ne_true_of_eq_false h) hfinite, Exact.toWord]
    exact decide_eq_false (Nat.lt_irrefl _)

/-- A number keeps its sign in every format. -/
theorem negative_convert (h : a.isNaN = false) : (a.convert g).negative = a.negative := by
  by_cases hfinite : a.isFinite
  · rw [convert_of_isFinite hfinite, Format.negative_roundScaled]
  · rw [convert, value_of_not_isFinite (ne_true_of_eq_false h) hfinite, Exact.toWord, infinite]

private theorem magnitude_convert_le (hf : 0 < f.fractionBits) (ha : a.isNaN = false)
    (hb : b.isNaN = false) (h : a.magnitude ≤ b.magnitude) :
    (a.convert g).magnitude ≤ (b.convert g).magnitude := by
  by_cases hfinite : b.isFinite
  · have hafinite : a.isFinite := decide_eq_true (h.trans_lt (of_decide_eq_true hfinite))
    have hsize := abs_toRat_le_of_magnitude_le hf hafinite hfinite h
    rw [abs_toRat_of_isFinite hafinite, abs_toRat_of_isFinite hfinite] at hsize
    rw [convert_of_isFinite hafinite, convert_of_isFinite hfinite]
    exact Format.magnitude_roundScaled_le hsize
  · -- nothing that is a number lies above the infinity
    have hinfinite : (b.convert g).magnitude = g.infinity := by
      rw [convert, value_of_not_isFinite (ne_true_of_eq_false hb) hfinite, Exact.toWord, infinite]
    rw [hinfinite]
    exact Nat.not_lt.mp (of_decide_eq_false (isNaN_convert ha))

private theorem magnitude_convert_eq_zero (hf : 0 < f.infinity) (h : a.magnitude = 0) :
    (a.convert g).magnitude = 0 := by
  have hfinite : a.isFinite := decide_eq_true (h ▸ hf)
  have hsignificand : a.significand = 0 := by simp [significand, h]
  rw [convert_of_isFinite hfinite, hsignificand, Format.roundScaled_zero, zero]

/-- Words stay in order in every format. -/
theorem convert_le_convert (hf : 0 < f.fractionBits) (hinf : 0 < f.infinity)
    (h : a.le b = true) : (a.convert g).le (b.convert g) = true := by
  obtain ⟨ha, hb, hrank⟩ := le_iff.mp h
  refine le_iff.mpr ⟨isNaN_convert ha, isNaN_convert hb, ?_⟩
  rw [rank, rank, negative_convert ha, negative_convert hb]
  rw [rank, rank] at hrank
  cases hna : a.negative <;> cases hnb : b.negative <;>
    simp only [hna, hnb, Exact.signed, Bool.false_eq_true, if_true, if_false] at hrank ⊢
  case false.false =>
    have := magnitude_convert_le (g := g) hf ha hb (by omega)
    omega
  case true.true =>
    have := magnitude_convert_le (g := g) hf hb ha (by omega)
    omega
  case true.false => omega
  case false.true =>
    have hza := magnitude_convert_eq_zero (g := g) hinf (show a.magnitude = 0 by omega)
    have hzb := magnitude_convert_eq_zero (g := g) hinf (show b.magnitude = 0 by omega)
    omega

end IndexedCodebook.Word
