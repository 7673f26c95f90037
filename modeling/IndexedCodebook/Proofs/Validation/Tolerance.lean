import IndexedCodebook.Proofs.Binary.Closest
import IndexedCodebook.Proofs.Binary.Order
import IndexedCodebook.Proofs.Validation.Within

/-!
# Tolerances as numbers

A tolerance reaches a number if it is the positive infinity or a finite word that is at least the
number (`Word.AtLeast`). Two finite values whose difference a tolerance reaches are within it
(`within_of_abs_sub_le`): the rounding of the difference cannot pass the tolerance, which is a word
itself. Nothing is within a tolerance that does not reach zero (`atLeast_zero_of_within`), and a
value is within a tolerance of itself exactly if it is finite and the tolerance reaches zero
(`within_self_iff`). In general a tolerance has to reach the word closest to the exact difference
(`within_iff_of_closest`).
-/

namespace IndexedCodebook

namespace Word

variable {f : Format} {w : Word f} {x : ℚ}

/-- A word is at least a number. -/
inductive AtLeast (w : Word f) (x : ℚ) : Prop where
  | infinity (h : w = infinite false)
  | finite (h : w.isFinite) (hx : x ≤ w.toRat)

/-- A word is at least what its value is at least. -/
theorem AtLeast.of_value (h : w.isFinite) {negative : Bool} {m : Nat} {e : Int}
    (hvalue : w.value = .finite negative m e) (hx : x ≤ Exact.signed negative m * 2 ^ e) :
    w.AtLeast x :=
  .finite h (toRat_of_value hvalue ▸ hx)

private theorem AtLeast.isNaN_eq_false (h : w.AtLeast x) : w.isNaN = false := by
  cases h with
  | infinity h => simp [h, isNaN, infinite]
  | finite h _ => exact isNaN_of_isFinite h

private theorem significand_eq_zero (h : w.magnitude = 0) : w.significand = 0 := by
  simp [significand, h]

private theorem rank_nonneg_iff (h : w.isFinite) : 0 ≤ w.rank ↔ 0 ≤ w.toRat := by
  have hpos : (0 : ℚ) < 2 ^ w.exponent := by positivity
  have hzero : w.magnitude = 0 ↔ w.significand = 0 := ⟨significand_eq_zero, magnitude_eq_zero⟩
  rw [toRat_of_isFinite h, mul_nonneg_iff_of_pos_right hpos, rank]
  cases w.negative with
  | false => simp [Exact.signed]
  | true =>
    rw [Exact.signed, Exact.signed, if_pos rfl, if_pos rfl, Int.cast_neg, Int.cast_natCast,
      neg_nonneg, neg_nonneg, Nat.cast_nonpos, Nat.cast_nonpos, hzero]

private theorem rank_eq_magnitude (h : 0 ≤ w.rank) : w.rank = w.magnitude := by
  unfold rank Exact.signed at h ⊢
  split
  · next hneg =>
    rw [if_pos hneg] at h
    omega
  · rfl

private theorem atLeast_zero (hf : 0 < f.infinity) (hnan : ¬ w.isNaN) (hrank : 0 ≤ w.rank) :
    w.AtLeast 0 := by
  by_cases h : w.isFinite
  · exact .finite h ((rank_nonneg_iff h).mp hrank)
  · have hinf := eq_infinite hnan h
    cases hneg : w.negative with
    | false => exact .infinity (hneg ▸ hinf)
    | true =>
      have hplace : (infinite true : Word f).rank = -f.infinity := rfl
      rw [hinf, hneg, hplace] at hrank
      omega

private theorem le_of_atLeast (hf : 0 < f.fractionBits) (h : w.AtLeast x) {negative : Bool}
    {m : Nat}
    {e : Int} (hx : (m : ℚ) * 2 ^ e ≤ x) : (f.roundScaled negative m e).abs.le w = true := by
  have hnumber : (f.roundScaled negative m e).isNaN = false := by
    by_cases hm : m = 0
    · rw [hm, Format.roundScaled_zero, ← saturated_zero, isNaN_saturated]
    · rw [Format.roundScaled_eq negative hm, isNaN_saturated]
  have hrank : (f.roundScaled negative m e).abs.rank ≤ w.rank := by
    have hplace : (f.roundScaled negative m e).abs.rank =
        (f.roundScaled negative m e).magnitude := rfl
    rw [hplace]
    cases h with
    | infinity h =>
      have hle : (f.roundScaled negative m e).magnitude ≤ f.infinity :=
        Nat.not_lt.mp (of_decide_eq_false hnumber)
      rw [h]
      exact Int.ofNat_le.mpr hle
    | finite h hw =>
      have hsize : (0 : ℚ) ≤ m * 2 ^ e := by positivity
      have hnonneg : 0 ≤ w.toRat := hsize.trans (hx.trans hw)
      have hle : (f.roundScaled negative m e).magnitude ≤ w.magnitude := by
        apply magnitude_roundScaled_le hf h
        rw [abs_of_nonneg hnonneg]
        exact hx.trans hw
      rw [rank_eq_magnitude ((rank_nonneg_iff h).mpr hnonneg)]
      exact Int.ofNat_le.mpr hle
  rw [le, isNaN_abs, hnumber, h.isNaN_eq_false, decide_eq_true hrank]
  rfl

private theorem abs_le_iff {d : Word f} (hf : 2 ≤ f.exponentBits) (hfraction : 0 < f.fractionBits) :
    d.abs.le w = true ↔ d.isNaN = false ∧ w.AtLeast |d.point| := by
  have hinf : 0 < f.infinity :=
    Nat.mul_pos (Nat.sub_pos_of_lt (Nat.one_lt_two_pow (by omega))) (Nat.two_pow_pos _)
  have hplace : d.abs.rank = d.magnitude := rfl
  rw [le_iff, isNaN_abs, hplace]
  constructor
  · rintro ⟨hd, hw, hrank⟩
    have hnonneg : 0 ≤ w.rank := (Int.natCast_nonneg _).trans hrank
    refine ⟨hd, ?_⟩
    cases atLeast_zero hinf (by simp [hw]) hnonneg with
    | infinity h => exact .infinity h
    | finite h hzero =>
      rw [rank_eq_magnitude hnonneg, Int.ofNat_le] at hrank
      have hfinite : d.isFinite := decide_eq_true (hrank.trans_lt (of_decide_eq_true h))
      refine .finite h ?_
      rw [point_of_isFinite hfinite, ← abs_of_nonneg hzero]
      exact abs_toRat_le_of_magnitude_le hfraction hfinite h hrank
  · rintro ⟨hd, hw⟩
    refine ⟨hd, hw.isNaN_eq_false, ?_⟩
    cases hw with
    | infinity h =>
      rw [h]
      exact Int.ofNat_le.mpr (Nat.not_lt.mp (of_decide_eq_false hd))
    | finite h hx =>
      have hnonneg : 0 ≤ w.toRat := (abs_nonneg _).trans hx
      rw [← abs_of_nonneg hnonneg] at hx
      have hfinite : d.isFinite := by
        by_contra hinf
        rw [eq_infinite (ne_true_of_eq_false hd) hinf, abs_point_infinite hf] at hx
        exact absurd (abs_toRat_lt hf h) hx.not_gt
      rw [point_of_isFinite hfinite] at hx
      rw [rank_eq_magnitude ((rank_nonneg_iff h).mpr hnonneg)]
      exact Int.ofNat_le.mpr (magnitude_le_of_abs_toRat_le hfraction hfinite h hx)

private theorem sub_of_isFinite {a b : Word f} (ha : a.isFinite) (hb : b.isFinite) :
    ∃ negative m e, a.sub b = f.roundScaled negative m e ∧
      Exact.signed negative m * 2 ^ e = a.toRat - b.toRat := by
  have hvalue : (a.value.add b.value.neg).toRat = a.toRat - b.toRat := by
    rw [value_of_isFinite ha, value_of_isFinite hb, Exact.neg, Exact.toRat_add_finite,
      ← Exact.neg, Exact.toRat_neg, ← value_of_isFinite ha, ← value_of_isFinite hb,
      sub_eq_add_neg]
    rfl
  rw [value_of_isFinite ha, value_of_isFinite hb, Exact.neg, Exact.add] at hvalue
  refine ⟨_, _, _, ?_, hvalue⟩
  rw [sub, value_of_isFinite ha, value_of_isFinite hb, Exact.neg, Exact.add, Exact.toWord]

private theorem isNaN_sub_self {w : Double} (h : ¬ w.isFinite) : (w.sub w).isNaN = true := by
  by_cases hnan : w.isNaN
  · exact isNaN_sub (.inl hnan)
  · have hsum : (Exact.infinite w.negative).add (Exact.infinite w.negative).neg = .nan := by
      cases w.negative <;> rfl
    rw [sub, value_of_not_isFinite hnan h, hsum, isNaN_toWord_nan (by decide)]

end Word

namespace Single

variable {w : Single}

private theorem toDouble_infinite (negative : Bool) :
    toDouble (Word.infinite negative) = Word.infinite negative := by
  rw [toDouble, Word.convert, Word.value_infinite, Exact.toWord]

/-- Exactly the finite words are finite in double precision. -/
theorem isFinite_toDouble_iff : w.toDouble.isFinite ↔ Word.isFinite w := by
  refine ⟨fun h ↦ ?_, fun h ↦ (toRat_toDouble h).1⟩
  by_contra hw
  by_cases hnan : Word.isNaN w
  · have := Word.isNaN_toDouble hnan
    rw [Word.isNaN_of_isFinite h] at this
    cases this
  · rw [Word.eq_infinite hnan hw, toDouble_infinite] at h
    exact Word.not_isFinite_infinite _ h

/-- Double precision keeps what a word is at least. -/
theorem atLeast_toDouble_iff {x : ℚ} : w.toDouble.AtLeast x ↔ Word.AtLeast w x := by
  by_cases h : Word.isFinite w
  · obtain ⟨hfinite, hrat⟩ := toRat_toDouble h
    constructor
    · rintro (hinf | ⟨-, hx⟩)
      · rw [hinf] at hfinite
        exact absurd hfinite (Word.not_isFinite_infinite _)
      · exact .finite h (hrat ▸ hx)
    · rintro (hinf | ⟨-, hx⟩)
      · rw [hinf] at h
        exact absurd h (Word.not_isFinite_infinite _)
      · exact .finite hfinite (hrat.symm ▸ hx)
  · by_cases hnan : Word.isNaN w
    · constructor
      · intro hw
        have := Word.isNaN_toDouble hnan
        rw [hw.isNaN_eq_false] at this
        cases this
      · intro hw
        rw [hw.isNaN_eq_false] at hnan
        cases hnan
    · rw [Word.eq_infinite hnan h, toDouble_infinite]
      cases w.negative with
      | false => exact ⟨fun _ ↦ .infinity rfl, fun _ ↦ .infinity rfl⟩
      | true =>
        constructor
        · rintro (hinf | ⟨hfinite, -⟩)
          · cases hinf
          · exact absurd hfinite (Word.not_isFinite_infinite _)
        · rintro (hinf | ⟨hfinite, -⟩)
          · cases hinf
          · exact absurd hfinite (Word.not_isFinite_infinite _)

end Single

namespace Validation

variable {tolerance expected actual : Double} {x : ℚ}

/-- Finite values are within a tolerance that is at least their distance. -/
theorem within_of_abs_sub_le (he : expected.isFinite) (ha : actual.isFinite)
    (ht : tolerance.AtLeast x) (h : |expected.toRat - actual.toRat| ≤ x) :
    within tolerance expected actual = true := by
  obtain ⟨negative, m, e, hsub, hdifference⟩ := Word.sub_of_isFinite he ha
  rw [← hdifference, abs_mul, Exact.abs_signed, abs_of_pos (by positivity)] at h
  rw [within, hsub]
  exact Word.le_of_atLeast (by decide) ht h

/-- Values are within a tolerance exactly if the double-precision word closest to their exact
difference is a number and the tolerance is at least its size. -/
theorem within_iff_of_closest (tolerance expected actual : Double) :
    ∃ difference : Double, (expected.value.add actual.value.neg).RoundsTo difference ∧
      (within tolerance expected actual = true ↔
        difference.isNaN = false ∧ tolerance.AtLeast |difference.point|) :=
  ⟨expected.sub actual, Exact.roundsTo_toWord (by decide) (by decide) _,
    Word.abs_le_iff (by decide) (by decide)⟩

/-- Something is within a tolerance only if that is at least zero. -/
theorem atLeast_zero_of_within (h : within tolerance expected actual = true) :
    tolerance.AtLeast 0 := by
  rw [within, Word.le, Bool.and_eq_true, Bool.and_eq_true, Bool.not_eq_true', Bool.not_eq_true',
    decide_eq_true_eq] at h
  obtain ⟨⟨-, hnan⟩, hrank⟩ := h
  have hnonneg : 0 ≤ (expected.sub actual).abs.rank := Int.natCast_nonneg _
  exact Word.atLeast_zero (by decide) (ne_true_of_eq_false hnan) (hnonneg.trans hrank)

/-- A value is within a tolerance of itself exactly if it is finite and the tolerance is at least
zero. -/
theorem within_self_iff {value : Double} :
    within tolerance value value = true ↔ value.isFinite ∧ tolerance.AtLeast 0 := by
  constructor
  · intro h
    refine ⟨?_, atLeast_zero_of_within h⟩
    by_contra hinf
    rw [within, Word.le, Word.isNaN_abs, Word.isNaN_sub_self hinf] at h
    cases h
  · rintro ⟨hfinite, ht⟩
    exact within_of_abs_sub_le hfinite hfinite ht (by rw [sub_self, abs_zero])

end Validation

end IndexedCodebook
