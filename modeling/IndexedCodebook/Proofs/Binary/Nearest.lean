import Mathlib.Algebra.Order.Field.Power
import Mathlib.Algebra.Order.Field.Rat
import Mathlib.Tactic.FieldSimp
import Mathlib.Tactic.Linarith
import Mathlib.Tactic.Positivity
import Mathlib.Tactic.NormNum
import Mathlib.Tactic.Ring
import IndexedCodebook.Address
import IndexedCodebook.Proofs.Binary.Conversion

/-!
# Rounded words as rational numbers

`Word.toRat` is the number that a finite word stands for, and sums and products of exact values are
sums and products of numbers. `Format.roundScaled` counts the units of the format that are nearest
to its number (`nearestEven_steps`). So rounding moves a number by at most half a unit
(`abs_toRat_roundScaled_sub_le`) and keeps the order of sizes (`magnitude_roundScaled_le`). A number
of whole units is not changed (`roundScaled_exact`), and one below a power of two of the format
stays finite, with an error sized for that power (`roundScaled_near`); so do products and
conversions (`Word.mul_near` and `Word.convert_near`).
-/

namespace IndexedCodebook

/-- An integer nearest to a number, and even if the number lies halfway between two integers. -/
structure NearestEven (n : Nat) (q : ℚ) : Prop where
  near : |(n : ℚ) - q| ≤ 1 / 2
  even : |(n : ℚ) - q| = 1 / 2 → n % 2 = 0

namespace NearestEven

variable {n n' : Nat} {q q' : ℚ}

/-- A whole number is nearest to itself. -/
theorem self (n : Nat) : NearestEven n n where
  near := by norm_num
  even := by norm_num

/-- An odd number is nearest to no number halfway to the next one or the one before. -/
theorem ne_half (h : NearestEven n q) (hodd : n % 2 = 1) : q ≠ n + 1 / 2 ∧ q ≠ n - 1 / 2 := by
  constructor
  · rintro rfl
    have := h.even (by norm_num)
    omega
  · rintro rfl
    have := h.even (by norm_num)
    omega

/-- The integers nearest to two numbers are in the order of the numbers. -/
theorem le_of_le (h : NearestEven n q) (h' : NearestEven n' q') (hq : q ≤ q') : n ≤ n' := by
  by_contra hlt
  have hstep : (n' : ℚ) + 1 ≤ n := by exact_mod_cast Nat.lt_of_not_le hlt
  have hlow := (abs_le.mp h.near).2
  have hhigh := (abs_le.mp h'.near).1
  -- both numbers are the same tie, between two integers that cannot both be even
  have htie : (n : ℚ) - q = 1 / 2 := by linarith
  have htie' : (n' : ℚ) - q' = -(1 / 2) := by linarith
  have heven := h.even (by rw [htie]; norm_num)
  have heven' := h'.even (by rw [htie']; norm_num)
  have hnext : n = n' + 1 := by
    have : (n : ℚ) = n' + 1 := by linarith
    exact_mod_cast this
  omega

end NearestEven

/-- A rounded quotient is nearest to the exact one, ties to even. -/
theorem nearestEven_roundDiv (num : Nat) {den : Nat} (hden : 0 < den) :
    NearestEven (roundDiv num den) (num / den) := by
  have hpos : (0 : ℚ) < den := by exact_mod_cast hden
  have hsplit : (num : ℚ) / den = (num / den : Nat) + (num % den : Nat) / den := by
    rw [eq_comm, ← mul_left_inj' hpos.ne', add_mul, div_mul_cancel₀ _ hpos.ne',
      div_mul_cancel₀ _ hpos.ne']
    exact_mod_cast Nat.div_add_mod' num den
  rw [hsplit, roundDiv]
  have hrem := Nat.mod_lt num hden
  generalize num / den = quotient
  generalize num % den = remainder at hrem
  have hnonneg : (0 : ℚ) ≤ remainder / den := by positivity
  have hlt : 2 * remainder < den ↔ (remainder : ℚ) / den < 1 / 2 := by
    rw [div_lt_div_iff₀ hpos two_pos, one_mul, mul_comm]
    exact_mod_cast Iff.rfl
  have heq : 2 * remainder = den ↔ (remainder : ℚ) / den = 1 / 2 := by
    rw [div_eq_div_iff hpos.ne' two_ne_zero, one_mul, mul_comm]
    exact_mod_cast Iff.rfl
  have hone : (remainder : ℚ) / den < 1 := by
    rw [div_lt_one hpos]
    exact_mod_cast hrem
  split
  · next h =>
    rw [hlt, heq] at h
    generalize (remainder : ℚ) / den = x at *
    have hdist : |(quotient : ℚ) - (quotient + x)| = x := by
      rw [sub_add_cancel_left, abs_neg, abs_of_nonneg hnonneg]
    constructor
    · rw [hdist]
      rcases h with h | h
      · exact h.le
      · exact h.1.le
    · rw [hdist]
      intro htie
      rcases h with h | h
      · exact absurd htie h.ne
      · exact h.2
  · next h =>
    rw [hlt, heq] at h
    generalize (remainder : ℚ) / den = x at *
    have hdist : |((quotient + 1 : Nat) : ℚ) - (quotient + x)| = 1 - x := by
      rw [Nat.cast_succ, add_sub_add_left_eq_sub, abs_of_pos (sub_pos.mpr hone)]
    rw [not_or, not_lt] at h
    constructor
    · rw [hdist]
      linarith [h.1]
    · rw [hdist]
      intro htie
      have hx : x = 1 / 2 := by linarith
      have hodd : ¬ quotient % 2 = 0 := fun heven ↦ h.2 ⟨hx, heven⟩
      omega

namespace Exact

/-- The number that a finite value is. What is not a finite number counts as zero. -/
def toRat : Exact → ℚ
  | .finite negative significand exponent => signed negative significand * 2 ^ exponent
  | .infinite _ | .nan => 0

/-- A signed integer has the size of the integer. -/
@[simp] theorem abs_signed (negative : Bool) (n : Nat) :
    |(signed negative n : ℚ)| = n := by
  cases negative <;> simp [signed]

/-- Nothing is left of a signed zero. -/
@[simp] theorem signed_zero (negative : Bool) : signed negative 0 = 0 := by
  cases negative <;> rfl

/-- The opposite value is the opposite number. -/
theorem toRat_neg (x : Exact) : x.neg.toRat = -x.toRat := by
  cases x with
  | nan => rfl
  | infinite negative => rfl
  | finite negative m e => cases negative <;> simp [neg, toRat, signed]

private theorem toRat_mul_finite (s s' : Bool) (m m' : Nat) (e e' : Int) :
    ((finite s m e).mul (finite s' m' e')).toRat =
      (finite s m e).toRat * (finite s' m' e').toRat := by
  have hsign : (signed (s != s') (m * m') : ℚ) = signed s m * signed s' m' := by
    cases s <;> cases s' <;> simp [signed]
  rw [mul, toRat, toRat, toRat, hsign, zpow_add₀ two_ne_zero]
  ring

/-- A significand may be written at a lower exponent. -/
theorem scaled_mul_zpow (m : Nat) {e c : Int} (h : c ≤ e) :
    ((m * 2 ^ (e - c).toNat : Nat) : ℚ) * 2 ^ c = m * 2 ^ e := by
  have hexponent : ((e - c).toNat : Int) + c = e := by omega
  rw [Nat.cast_mul, Nat.cast_pow, Nat.cast_ofNat, mul_assoc, ← zpow_natCast,
    ← zpow_add₀ two_ne_zero, hexponent]

private theorem signed_scaled_mul_zpow (s : Bool) (m : Nat) {e c : Int} (h : c ≤ e) :
    (signed s (m * 2 ^ (e - c).toNat) : ℚ) * 2 ^ c = signed s m * 2 ^ e := by
  have := scaled_mul_zpow m h
  cases s
  · simpa [signed] using this
  · simpa [signed] using this

/-- The sum of finite values is the sum of the numbers. -/
theorem toRat_add_finite (s s' : Bool) (m m' : Nat) (e e' : Int) :
    ((finite s m e).add (finite s' m' e')).toRat =
      (finite s m e).toRat + (finite s' m' e').toRat := by
  have hsigned : ∀ (b : Bool) (n : Int),
      signed (if n = 0 then b else decide (n < 0)) n.natAbs = n := by
    intro b n
    split
    · next h => simp [h, signed]
    · next h =>
      by_cases hneg : n < 0
      · simp only [signed, hneg, decide_true, if_true]
        omega
      · simp only [signed, hneg, decide_false, Bool.false_eq_true, if_false]
        omega
  simp only [add, toRat, hsigned]
  rw [Int.cast_add, add_mul, signed_scaled_mul_zpow s m (Int.min_le_left e e'),
    signed_scaled_mul_zpow s' m' (Int.min_le_right e e')]

end Exact

namespace Word

variable {f g : Format}

/-- The number that a finite word stands for. What is not a finite number counts as zero. -/
def toRat (w : Word f) : ℚ := w.value.toRat

/-- The number of a word whose value is finite. -/
theorem toRat_of_value {w : Word f} {negative : Bool} {m : Nat} {e : Int}
    (h : w.value = .finite negative m e) : w.toRat = Exact.signed negative m * 2 ^ e := by
  rw [toRat, h, Exact.toRat]

/-- A finite word is its significand at its exponent. -/
theorem toRat_of_isFinite {w : Word f} (h : w.isFinite) :
    w.toRat = Exact.signed w.negative w.significand * 2 ^ w.exponent :=
  toRat_of_value (value_of_isFinite h)

/-- The size of a finite word. -/
theorem abs_toRat_of_isFinite {w : Word f} (h : w.isFinite) :
    |w.toRat| = w.significand * 2 ^ w.exponent := by
  rw [toRat_of_isFinite h, abs_mul, Exact.abs_signed, abs_of_pos (by positivity)]

/-- The point of the number line at which rounding sees a word. A finite word is seen at its number,
an infinity at the power of two on top of the finite words. -/
def point (w : Word f) : ℚ := Exact.signed w.negative w.significand * 2 ^ w.exponent

/-- A finite word is seen at its number. -/
theorem point_of_isFinite {w : Word f} (h : w.isFinite) : w.point = w.toRat :=
  (toRat_of_isFinite h).symm

/-- The distance of a point from zero. -/
theorem abs_point (w : Word f) : |w.point| = w.significand * 2 ^ w.exponent := by
  rw [point, abs_mul, Exact.abs_signed, abs_of_pos (by positivity)]

/-- A word of a magnitude counts units of the magnitude's exponents. -/
theorem point_of_magnitude {w : Word f} {s j : Nat}
    (hmag : w.magnitude = s + j * 2 ^ f.fractionBits)
    (hj : j = 0 ∨ 2 ^ f.fractionBits ≤ s) (hs : s ≤ 2 ^ (f.fractionBits + 1)) :
    w.point = Exact.signed w.negative s * 2 ^ (f.minExponent + j) := by
  have hpow : 2 ^ (f.fractionBits + 1) = 2 * 2 ^ f.fractionBits := Nat.pow_succ'
  rw [point]
  rcases Nat.lt_or_eq_of_le hs with hlt | rfl
  · obtain ⟨hsignificand, hexponent⟩ := significand_of_magnitude hmag (by omega)
    rw [hsignificand, hexponent]
  · -- a carry into the next power of two
    have hcarry : w.magnitude = 2 ^ f.fractionBits + (j + 1) * 2 ^ f.fractionBits := by
      rw [hmag, hpow, Nat.succ_mul j]
      omega
    have hpos := Nat.two_pow_pos f.fractionBits
    obtain ⟨hsignificand, hexponent⟩ :=
      significand_of_magnitude hcarry (.inr ⟨Nat.le_refl _, by omega⟩)
    have hsigned : (Exact.signed w.negative (2 ^ (f.fractionBits + 1)) : ℚ) =
        Exact.signed w.negative (2 ^ f.fractionBits) * 2 := by
      cases w.negative <;> simp [Exact.signed, pow_succ]
    rw [hsignificand, hexponent, hsigned, mul_assoc, ← zpow_one_add₀ two_ne_zero]
    congr 2
    push_cast
    ring

/-- Zero stands for zero. -/
@[simp] theorem toRat_zero (negative : Bool) : (zero negative : Word f).toRat = 0 := by
  by_cases h : (zero negative : Word f).isFinite
  · have hsignificand : (zero negative : Word f).significand = 0 := by simp [significand, zero]
    rw [toRat_of_isFinite h, hsignificand, Exact.signed_zero, Int.cast_zero, zero_mul]
  · have hnan : ¬ (zero negative : Word f).isNaN := by simp [isNaN, zero]
    rw [toRat, value_of_not_isFinite hnan h, Exact.toRat]

/-- Zero is finite. -/
theorem isFinite_zero (negative : Bool) (hf : 0 < f.exponentBits) :
    (zero negative : Word f).isFinite := by
  apply decide_eq_true
  have htwo : 2 ^ 1 ≤ 2 ^ f.exponentBits := Nat.pow_le_pow_right Nat.two_pos hf
  exact Nat.mul_pos (by omega) (Nat.two_pow_pos _)

end Word

namespace Format

variable {f : Format} {m m' : Nat} {e e' : Int} {negative negative' : Bool}

private theorem log2_add_lt {k : Int} (hm : m ≠ 0) (h : (m : ℚ) * 2 ^ e < 2 ^ k) :
    m.log2 + e < k := by
  have hlog : (2 : ℚ) ^ m.log2 ≤ m := by exact_mod_cast Nat.log2_self_le hm
  rw [← zpow_lt_zpow_iff_right₀ (one_lt_two : (1 : ℚ) < 2)]
  calc (2 : ℚ) ^ ((m.log2 : Int) + e) = 2 ^ m.log2 * 2 ^ e := by
        rw [zpow_add₀ two_ne_zero, zpow_natCast]
    _ ≤ m * 2 ^ e := by gcongr
    _ < 2 ^ k := h

private theorem log2_add_le (hm : m ≠ 0) (h : (m : ℚ) * 2 ^ e ≤ m' * 2 ^ e') :
    m.log2 + e ≤ m'.log2 + e' := by
  have hlog : (m' : ℚ) < 2 ^ ((m'.log2 : Int) + 1) := by
    exact_mod_cast (Nat.lt_log2_self : m' < 2 ^ (m'.log2 + 1))
  have hlt : (m : ℚ) * 2 ^ e < 2 ^ ((m'.log2 : Int) + 1 + e') := by
    rw [zpow_add₀ two_ne_zero]
    exact lt_of_le_of_lt h (by gcongr)
  have := log2_add_lt hm hlt
  omega

/-- The exponent of the largest power of two among the finite words of a format. -/
def maxExponent (f : Format) : Int := f.minExponent + f.fractionBits + (2 ^ f.exponentBits - 3)

/-- The number of units that `m · 2 ^ e` is rounded to. -/
def steps (f : Format) (m : Nat) (e : Int) : Nat :=
  roundDiv (m * 2 ^ (e - f.unit m e).toNat) (2 ^ (f.unit m e - e).toNat)

/-- The number of units is nearest, ties to even. -/
theorem nearestEven_steps (f : Format) (m : Nat) (e : Int) :
    NearestEven (f.steps m e) (m * 2 ^ e / 2 ^ f.unit m e) := by
  have hquotient : ((m * 2 ^ (e - f.unit m e).toNat : Nat) : ℚ) /
      ((2 ^ (f.unit m e - e).toNat : Nat) : ℚ) = m * 2 ^ e / 2 ^ f.unit m e := by
    have hexponent : ((e - f.unit m e).toNat : Int) - ((f.unit m e - e).toNat : Int) =
        e - f.unit m e := by omega
    rw [Nat.cast_mul, Nat.cast_pow, Nat.cast_pow, Nat.cast_ofNat, mul_div_assoc, mul_div_assoc,
      ← zpow_natCast, ← zpow_natCast, ← zpow_sub₀ two_ne_zero, ← zpow_sub₀ two_ne_zero,
      hexponent]
  rw [← hquotient]
  exact nearestEven_roundDiv _ (Nat.two_pow_pos _)

private theorem lt_two_zpow_unit (f : Format) (m : Nat) (e : Int) :
    (m : ℚ) * 2 ^ e < 2 ^ (f.fractionBits + 1) * 2 ^ f.unit m e := by
  have hlog : (m : ℚ) < 2 ^ ((m.log2 : Int) + 1) := by
    exact_mod_cast (Nat.lt_log2_self : m < 2 ^ (m.log2 + 1))
  have hunit : (m.log2 : Int) + 1 + e ≤ ((f.fractionBits + 1 : Nat) : Int) + f.unit m e := by
    rw [unit]
    omega
  calc (m : ℚ) * 2 ^ e < 2 ^ ((m.log2 : Int) + 1) * 2 ^ e := by gcongr
    _ = 2 ^ ((m.log2 : Int) + 1 + e) := (zpow_add₀ two_ne_zero _ _).symm
    _ ≤ 2 ^ (((f.fractionBits + 1 : Nat) : Int) + f.unit m e) :=
      zpow_le_zpow_right₀ one_le_two hunit
    _ = 2 ^ (f.fractionBits + 1) * 2 ^ f.unit m e := by
      rw [zpow_add₀ two_ne_zero, zpow_natCast]

/-- A number that is not subnormal has its leading bit on top of the fraction. -/
theorem two_zpow_unit_le (hm : m ≠ 0) (h : f.minExponent < f.unit m e) :
    2 ^ f.fractionBits * 2 ^ f.unit m e ≤ (m : ℚ) * 2 ^ e := by
  have hlog : (2 : ℚ) ^ m.log2 ≤ m := by exact_mod_cast Nat.log2_self_le hm
  have hunit : (f.fractionBits : Int) + f.unit m e = m.log2 + e := by
    rw [unit] at h ⊢
    omega
  calc (2 : ℚ) ^ f.fractionBits * 2 ^ f.unit m e = 2 ^ m.log2 * 2 ^ e := by
        rw [← zpow_natCast, ← zpow_natCast, ← zpow_add₀ two_ne_zero,
          ← zpow_add₀ two_ne_zero, hunit]
    _ ≤ m * 2 ^ e := by gcongr

/-- Rounding reaches at most the next power of two. -/
theorem steps_le (f : Format) (m : Nat) (e : Int) : f.steps m e ≤ 2 ^ (f.fractionBits + 1) := by
  apply (f.nearestEven_steps m e).le_of_le (.self _)
  rw [div_le_iff₀ (by positivity), Nat.cast_pow, Nat.cast_ofNat]
  exact (f.lt_two_zpow_unit m e).le

private theorem le_steps (hm : m ≠ 0) (h : f.minExponent < f.unit m e) :
    2 ^ f.fractionBits ≤ f.steps m e := by
  apply (NearestEven.self _).le_of_le (f.nearestEven_steps m e)
  rw [le_div_iff₀ (by positivity), Nat.cast_pow, Nat.cast_ofNat]
  exact two_zpow_unit_le hm h

/-- The sign of a rounded number is the sign it had. -/
@[simp] theorem negative_roundScaled (f : Format) (negative : Bool) (m : Nat) (e : Int) :
    (f.roundScaled negative m e).negative = negative := by
  by_cases hm : m = 0
  · rw [hm, roundScaled_zero]
    rfl
  · rw [roundScaled_eq negative hm]
    rfl

/-- The magnitude of a rounded number, unless that is beyond the infinity. -/
theorem magnitude_roundScaled (hm : m ≠ 0) :
    (f.roundScaled negative m e).magnitude =
      min (f.steps m e + (f.unit m e - f.minExponent).toNat * 2 ^ f.fractionBits) f.infinity := by
  rw [roundScaled_eq negative hm]
  rfl

/-- A rounded number that does not pass the infinity is seen at a whole number of units. -/
theorem point_roundScaled (hm : m ≠ 0)
    (h : f.steps m e + (f.unit m e - f.minExponent).toNat * 2 ^ f.fractionBits ≤ f.infinity) :
    (f.roundScaled negative m e).point =
      Exact.signed negative (f.steps m e) * 2 ^ f.unit m e := by
  have hunit : f.minExponent ≤ f.unit m e := Int.le_max_left ..
  have hmag : (f.roundScaled negative m e).magnitude =
      f.steps m e + (f.unit m e - f.minExponent).toNat * 2 ^ f.fractionBits := by
    rw [magnitude_roundScaled hm, Nat.min_eq_left h]
  have hplace : (f.unit m e - f.minExponent).toNat = 0 ∨ 2 ^ f.fractionBits ≤ f.steps m e := by
    rcases Int.le_iff_lt_or_eq.mp hunit with hlt | heq
    · exact .inr (le_steps hm hlt)
    · exact .inl (by omega)
  have hexponent : f.minExponent + ((f.unit m e - f.minExponent).toNat : Int) = f.unit m e := by
    omega
  rw [Word.point_of_magnitude hmag hplace (f.steps_le m e), negative_roundScaled, hexponent]

private theorem toRat_roundScaled (hm : m ≠ 0) (h : (f.roundScaled negative m e).isFinite) :
    (f.roundScaled negative m e).toRat =
      Exact.signed negative (f.steps m e) * 2 ^ f.unit m e := by
  have hlt : (f.roundScaled negative m e).magnitude < f.infinity := of_decide_eq_true h
  rw [magnitude_roundScaled hm] at hlt
  rw [← Word.point_of_isFinite h, point_roundScaled hm (by omega)]

private theorem abs_toRat_roundScaled_sub_le (h : (f.roundScaled negative m e).isFinite) :
    |(f.roundScaled negative m e).toRat - Exact.signed negative m * 2 ^ e| ≤
      2 ^ f.unit m e / 2 := by
  by_cases hm : m = 0
  · rw [hm, roundScaled_zero, Word.toRat_zero, Exact.signed_zero, Int.cast_zero, zero_mul,
      sub_zero, abs_zero]
    positivity
  have hpos : (0 : ℚ) < 2 ^ f.unit m e := by positivity
  have hnear := (f.nearestEven_steps m e).near
  have hdist : (f.roundScaled negative m e).toRat - Exact.signed negative m * 2 ^ e =
      Exact.signed negative 1 * ((f.steps m e : ℚ) - m * 2 ^ e / 2 ^ f.unit m e) *
        2 ^ f.unit m e := by
    rw [toRat_roundScaled hm h]
    cases negative
    · simp only [Exact.signed, Bool.false_eq_true, if_false]
      push_cast
      field_simp
    · simp only [Exact.signed, if_true]
      push_cast
      field_simp
      ring
  rw [hdist, abs_mul, abs_mul, Exact.abs_signed, abs_of_pos hpos, Nat.cast_one, one_mul]
  calc |(f.steps m e : ℚ) - m * 2 ^ e / 2 ^ f.unit m e| * 2 ^ f.unit m e
      ≤ 1 / 2 * 2 ^ f.unit m e := by gcongr
    _ = 2 ^ f.unit m e / 2 := by ring

/-- Rounding keeps the order of sizes. -/
theorem magnitude_roundScaled_le (h : (m : ℚ) * 2 ^ e ≤ m' * 2 ^ e') :
    (f.roundScaled negative m e).magnitude ≤ (f.roundScaled negative' m' e').magnitude := by
  by_cases hm : m = 0
  · rw [hm, roundScaled_zero]
    exact Nat.zero_le _
  have hm' : m' ≠ 0 := by
    rintro rfl
    have hpos : (0 : ℚ) < m * 2 ^ e := by positivity
    simp at h
    linarith
  have hunit : f.unit m e ≤ f.unit m' e' := by
    have := log2_add_le hm h
    rw [unit, unit]
    omega
  rw [magnitude_roundScaled hm, magnitude_roundScaled hm']
  have hmin : f.minExponent ≤ f.unit m e := Int.le_max_left ..
  rcases Int.le_iff_lt_or_eq.mp hunit with hlt | heq
  · have hnext : (f.unit m e - f.minExponent).toNat + 1 ≤
        (f.unit m' e' - f.minExponent).toNat := by omega
    have hscaled := Nat.mul_le_mul_right (2 ^ f.fractionBits) hnext
    have hupper := f.steps_le m e
    have hlower := le_steps hm' (Int.lt_of_le_of_lt hmin hlt)
    rw [Nat.succ_mul] at hscaled
    rw [Nat.pow_succ] at hupper
    omega
  · have hsteps : f.steps m e ≤ f.steps m' e' := by
      apply (f.nearestEven_steps m e).le_of_le (f.nearestEven_steps m' e')
      rw [heq]
      gcongr
    rw [heq]
    omega

/-- Only the number matters to rounding, not how it is written. -/
theorem roundScaled_congr (h : (m : ℚ) * 2 ^ e = m' * 2 ^ e') :
    f.roundScaled negative m e = f.roundScaled negative m' e' := by
  apply Word.ext
  · rw [negative_roundScaled, negative_roundScaled]
  · exact Nat.le_antisymm (magnitude_roundScaled_le h.le) (magnitude_roundScaled_le h.ge)

private theorem unit_le {k : Int} (hm : m ≠ 0) (h : (m : ℚ) * 2 ^ e < 2 ^ k) :
    f.unit m e ≤ max f.minExponent (k - 1 - f.fractionBits) := by
  have := log2_add_lt hm h
  rw [unit]
  omega

private theorem steps_mul_zpow (h : f.unit m e ≤ e) :
    (f.steps m e : ℚ) * 2 ^ f.unit m e = m * 2 ^ e := by
  have hone : (f.unit m e - e).toNat = 0 := by omega
  have hsteps : f.steps m e = m * 2 ^ (e - f.unit m e).toNat := by
    have hwhole := roundDiv_mul_right (m * 2 ^ (e - f.unit m e).toNat) Nat.one_pos
    rwa [Nat.mul_one, ← Nat.pow_zero 2, ← hone] at hwhole
  rw [hsteps, Exact.scaled_mul_zpow m h]

/-- Such a number is not changed by rounding, if it lies within the format. -/
theorem roundScaled_exact (hf : 2 ≤ f.exponentBits) (h : f.unit m e ≤ e)
    (hlt : (m : ℚ) * 2 ^ e < 2 ^ (f.maxExponent + 1)) :
    (f.roundScaled negative m e).isFinite ∧
      (f.roundScaled negative m e).toRat = Exact.signed negative m * 2 ^ e := by
  by_cases hm : m = 0
  · rw [hm, roundScaled_zero, Word.toRat_zero, Exact.signed_zero, Int.cast_zero, zero_mul]
    exact ⟨Word.isFinite_zero negative (by omega), rfl⟩
  have hwhole := steps_mul_zpow h
  have hfinite : (f.roundScaled negative m e).isFinite := by
    have hunit := unit_le (f := f) hm hlt
    have hfour : 2 ^ 2 ≤ 2 ^ f.exponentBits := Nat.pow_le_pow_right two_pos hf
    have hcast : ((2 ^ f.exponentBits : Nat) : Int) = 2 ^ f.exponentBits := by push_cast; rfl
    have hplace : (f.unit m e - f.minExponent).toNat + 3 ≤ 2 ^ f.exponentBits := by
      rw [maxExponent] at hunit
      omega
    have hscaled := Nat.mul_le_mul_right (2 ^ f.fractionBits) hplace
    have hsteps : f.steps m e < 2 ^ (f.fractionBits + 1) := by
      have hbelow := f.lt_two_zpow_unit m e
      rw [← hwhole] at hbelow
      exact_mod_cast lt_of_mul_lt_mul_right hbelow (by positivity)
    rw [Nat.add_mul] at hscaled
    rw [Nat.pow_succ] at hsteps
    apply decide_eq_true
    rw [magnitude_roundScaled hm, infinity, Nat.sub_mul]
    omega
  refine ⟨hfinite, ?_⟩
  rw [toRat_roundScaled hm hfinite]
  cases negative
  · simpa [Exact.signed] using hwhole
  · simpa [Exact.signed] using hwhole

private theorem isFinite_roundScaled (hf : 2 ≤ f.exponentBits) {k : Int}
    (h : (m : ℚ) * 2 ^ e < 2 ^ k)
    (hk : k ≤ f.maxExponent) : (f.roundScaled negative m e).isFinite := by
  have hfour : 2 ^ 2 ≤ 2 ^ f.exponentBits := Nat.pow_le_pow_right two_pos hf
  have hcast : ((2 ^ f.exponentBits : Nat) : Int) = 2 ^ f.exponentBits := by push_cast; rfl
  -- the power of two, or the smallest of the format if that is larger
  have hone : max k f.minExponent ≤ f.maxExponent := by
    rw [maxExponent] at hk ⊢
    omega
  have hunit : f.unit 1 (max k f.minExponent) ≤ max k f.minExponent := by
    have hlog : Nat.log2 1 = 0 := by decide
    rw [unit, hlog]
    omega
  have hle : (m : ℚ) * 2 ^ e ≤ (1 : Nat) * 2 ^ max k f.minExponent := by
    rw [Nat.cast_one, one_mul]
    exact h.le.trans (zpow_le_zpow_right₀ one_le_two (Int.le_max_left ..))
  have hlt : ((1 : Nat) : ℚ) * 2 ^ max k f.minExponent < 2 ^ (f.maxExponent + 1) := by
    rw [Nat.cast_one, one_mul]
    exact zpow_lt_zpow_right₀ one_lt_two (by omega)
  have hfinite : (f.roundScaled negative 1 (max k f.minExponent)).isFinite :=
    (roundScaled_exact hf hunit hlt).1
  exact decide_eq_true (lt_of_le_of_lt (magnitude_roundScaled_le hle) (of_decide_eq_true hfinite))

private theorem roundScaled_near (hf : 2 ≤ f.exponentBits) {k : Int} (h : (m : ℚ) * 2 ^ e < 2 ^ k)
    (hmin : f.minExponent + f.fractionBits + 1 ≤ k) (hmax : k ≤ f.maxExponent) :
    (f.roundScaled negative m e).isFinite ∧
      |(f.roundScaled negative m e).toRat - Exact.signed negative m * 2 ^ e| ≤
        2 ^ (k - (f.fractionBits + 2)) := by
  have hfinite : (f.roundScaled negative m e).isFinite := isFinite_roundScaled hf h hmax
  refine ⟨hfinite, ?_⟩
  by_cases hm : m = 0
  · rw [hm, roundScaled_zero, Word.toRat_zero, Exact.signed_zero, Int.cast_zero, zero_mul,
      sub_zero, abs_zero]
    positivity
  have hunit : f.unit m e - 1 ≤ k - (f.fractionBits + 2) := by
    have := unit_le (f := f) hm h
    omega
  calc |(f.roundScaled negative m e).toRat - Exact.signed negative m * 2 ^ e|
      ≤ 2 ^ f.unit m e / 2 := abs_toRat_roundScaled_sub_le hfinite
    _ = 2 ^ (f.unit m e - 1) := by rw [zpow_sub_one₀ two_ne_zero, div_eq_mul_inv]
    _ ≤ 2 ^ (k - (f.fractionBits + 2)) := zpow_le_zpow_right₀ one_le_two hunit

end Format

namespace Word

variable {f g : Format} {a b w : Word f} {k : Int}

/-- The product of finite words is the rounded product of their significands. -/
theorem mul_of_isFinite (ha : a.isFinite) (hb : b.isFinite) :
    a.mul b = f.roundScaled (a.negative != b.negative) (a.significand * b.significand)
      (a.exponent + b.exponent) := by
  rw [mul, value_of_isFinite ha, value_of_isFinite hb, Exact.mul, Exact.toWord]

/-- The number that a product of finite words is rounded from. -/
theorem toRat_mul_toRat (ha : a.isFinite) (hb : b.isFinite) :
    a.toRat * b.toRat = Exact.signed (a.negative != b.negative) (a.significand * b.significand) *
      2 ^ (a.exponent + b.exponent) := by
  rw [toRat, toRat, value_of_isFinite ha, value_of_isFinite hb, ← Exact.toRat_mul_finite,
    Exact.mul, Exact.toRat]

/-- The size of that number. -/
theorem abs_toRat_mul_toRat (ha : a.isFinite) (hb : b.isFinite) :
    ((a.significand * b.significand : Nat) : ℚ) * 2 ^ (a.exponent + b.exponent) =
      |a.toRat * b.toRat| := by
  rw [toRat_mul_toRat ha hb, abs_mul, Exact.abs_signed, abs_of_pos (by positivity)]

/-- Products below a power of two are off by at most half a unit of the next lower one. -/
theorem mul_near (hf : 2 ≤ f.exponentBits) (ha : a.isFinite) (hb : b.isFinite)
    (h : |a.toRat * b.toRat| < 2 ^ k) (hmin : f.minExponent + f.fractionBits + 1 ≤ k)
    (hmax : k ≤ f.maxExponent) :
    (a.mul b).isFinite ∧
      |(a.mul b).toRat - a.toRat * b.toRat| ≤ 2 ^ (k - (f.fractionBits + 2)) := by
  rw [← abs_toRat_mul_toRat ha hb] at h
  rw [mul_of_isFinite ha hb, toRat_mul_toRat ha hb]
  exact Format.roundScaled_near hf h hmin hmax

/-- So are converted words. -/
theorem convert_near (hg : 2 ≤ g.exponentBits) (hw : w.isFinite) (h : |w.toRat| < 2 ^ k)
    (hmin : g.minExponent + g.fractionBits + 1 ≤ k) (hmax : k ≤ g.maxExponent) :
    (w.convert g).isFinite ∧
      |(w.convert g).toRat - w.toRat| ≤ 2 ^ (k - (g.fractionBits + 2)) := by
  rw [abs_toRat_of_isFinite hw] at h
  rw [convert_of_isFinite hw, toRat_of_isFinite hw]
  exact Format.roundScaled_near hg h hmin hmax

end Word

end IndexedCodebook
