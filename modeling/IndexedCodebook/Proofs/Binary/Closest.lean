import IndexedCodebook.Proofs.Binary.Widening

/-!
# The word closest to an exact value

`Exact.RoundsTo` says which word of a format an exact value is rounded to, without a word on how: a
finite value goes to a word of its sign that no other word is closer to, and that is even if another
one is as close. An infinity takes part as the power of two on top of the finite words
(`Word.point`), which settles overflow too. `Exact.toWord`, by which every operation rounds its
exact result, does this (`Exact.roundsTo_toWord`).
-/

namespace IndexedCodebook

namespace NearestEven

variable {n : Nat} {q : ℚ}

private theorem one_le_distances {k n : Nat} (hk : k ≠ n) (q : ℚ) :
    1 ≤ |(k : ℚ) - q| + |(n : ℚ) - q| := by
  have hint : (1 : ℤ) ≤ |(k : ℤ) - n| := Int.one_le_abs (sub_ne_zero.mpr (by exact_mod_cast hk))
  calc (1 : ℚ) ≤ |(k : ℚ) - n| := by exact_mod_cast hint
    _ ≤ |(k : ℚ) - q| + |q - n| := abs_sub_le _ _ _
    _ = |(k : ℚ) - q| + |(n : ℚ) - q| := by rw [abs_sub_comm q]

/-- No integer is closer than a nearest one. -/
theorem abs_sub_le (h : NearestEven n q) (k : Nat) : |(n : ℚ) - q| ≤ |(k : ℚ) - q| := by
  by_cases hk : k = n
  · rw [hk]
  · have hstep := one_le_distances hk q
    have hnear := h.near
    linarith

private theorem even_of_abs_sub_eq (h : NearestEven n q) {k : Nat} (hk : k ≠ n)
    (heq : |(n : ℚ) - q| = |(k : ℚ) - q|) : n % 2 = 0 := by
  have hstep := one_le_distances hk q
  have hnear := h.near
  apply h.even
  linarith

end NearestEven

namespace Word

variable {f : Format} {w : Word f}

/-- An infinity is seen at the power of two on top of the finite words. -/
theorem abs_point_infinite (hf : 2 ≤ f.exponentBits) (negative : Bool) :
    |(infinite negative : Word f).point| = 2 ^ (f.maxExponent + 1) := by
  have hfour : 2 ^ 2 ≤ 2 ^ f.exponentBits := Nat.pow_le_pow_right two_pos hf
  have hcast : ((2 ^ f.exponentBits : Nat) : Int) = 2 ^ f.exponentBits := by push_cast; rfl
  have hmagnitude : (infinite negative : Word f).magnitude =
      2 ^ f.fractionBits + (2 ^ f.exponentBits - 2) * 2 ^ f.fractionBits := by
    show (2 ^ f.exponentBits - 1) * 2 ^ f.fractionBits = _
    rw [Nat.add_comm, ← Nat.succ_mul]
    congr 1
    omega
  rw [point_of_magnitude hmagnitude (.inr (Nat.le_refl _))
    (Nat.pow_le_pow_right two_pos (Nat.le_succ _)), abs_mul, Exact.abs_signed,
    abs_of_pos (by positivity), Nat.cast_pow, Nat.cast_ofNat, ← zpow_natCast,
    ← zpow_add₀ two_ne_zero, Format.maxExponent]
  congr 1
  omega

private theorem abs_point_le (hf : 2 ≤ f.exponentBits) (h : w.isNaN = false) :
    |w.point| ≤ 2 ^ (f.maxExponent + 1) := by
  by_cases hfinite : w.isFinite
  · rw [point_of_isFinite hfinite]
    exact (abs_toRat_lt hf hfinite).le
  · rw [eq_infinite (ne_true_of_eq_false h) hfinite]
    exact (abs_point_infinite hf _).le

end Word

namespace Format

variable {f : Format} {m : Nat} {e : Int}

private theorem abs_point_cases (w : Word f) (m : Nat) (e : Int) :
    (∃ k : Nat, |w.point| = k * 2 ^ f.unit m e) ∨
      f.minExponent < f.unit m e ∧ |w.point| < 2 ^ f.fractionBits * 2 ^ f.unit m e := by
  rw [w.abs_point]
  rcases Int.lt_or_le w.exponent (f.unit m e) with hlt | hle
  · right
    refine ⟨Int.lt_of_le_of_lt w.minExponent_le_exponent hlt, ?_⟩
    have hsignificand : (w.significand : ℚ) < 2 ^ f.fractionBits * 2 := by
      exact_mod_cast w.significand_lt
    calc (w.significand : ℚ) * 2 ^ w.exponent
        < 2 ^ f.fractionBits * 2 * 2 ^ w.exponent := by gcongr
      _ = 2 ^ f.fractionBits * 2 ^ (1 + w.exponent) := by
        rw [mul_assoc, zpow_one_add₀ two_ne_zero]
      _ ≤ 2 ^ f.fractionBits * 2 ^ f.unit m e := by
        gcongr
        · exact one_le_two
        · omega
  · left
    exact ⟨_, (Exact.scaled_mul_zpow w.significand hle).symm⟩

private theorem abs_units_sub (k m : Nat) (e u : Int) :
    |(k : ℚ) * 2 ^ u - m * 2 ^ e| = |(k : ℚ) - m * 2 ^ e / 2 ^ u| * 2 ^ u := by
  have hpos : (0 : ℚ) < 2 ^ u := by positivity
  rw [← abs_of_pos hpos, ← abs_mul, abs_of_pos hpos, sub_mul, div_mul_cancel₀ _ hpos.ne']

private theorem steps_closest (hm : m ≠ 0) (w : Word f) :
    |(f.steps m e : ℚ) * 2 ^ f.unit m e - m * 2 ^ e| ≤ |(|w.point|) - m * 2 ^ e| ∧
      (|w.point| ≠ f.steps m e * 2 ^ f.unit m e →
        |(f.steps m e : ℚ) * 2 ^ f.unit m e - m * 2 ^ e| = |(|w.point|) - m * 2 ^ e| →
        f.steps m e % 2 = 0) := by
  have hpos : (0 : ℚ) < 2 ^ f.unit m e := by positivity
  have hnearest := f.nearestEven_steps m e
  rcases abs_point_cases w m e with ⟨k, hk⟩ | ⟨hmin, hlt⟩
  · rw [hk, abs_units_sub, abs_units_sub]
    constructor
    · exact mul_le_mul_of_nonneg_right (hnearest.abs_sub_le k) hpos.le
    · intro hne heq
      apply hnearest.even_of_abs_sub_eq (k := k)
      · rintro rfl
        exact hne rfl
      · exact mul_right_cancel₀ hpos.ne' heq
  · -- the power of two lies between the word and the number, and is a whole number of units
    have hbelow := two_zpow_unit_le hm hmin
    have hpower := hnearest.abs_sub_le (2 ^ f.fractionBits)
    rw [← mul_le_mul_iff_left₀ hpos, ← abs_units_sub, ← abs_units_sub, Nat.cast_pow,
      Nat.cast_ofNat, abs_of_nonpos (sub_nonpos.mpr hbelow)] at hpower
    have hfar : |(|w.point|) - (m : ℚ) * 2 ^ e| = m * 2 ^ e - |w.point| := by
      rw [abs_of_nonpos (by linarith), neg_sub]
    rw [hfar]
    constructor
    · linarith
    · intro _ heq
      linarith

private theorem two_zpow_le_of_infinity_lt (hf : 2 ≤ f.exponentBits) (hm : m ≠ 0)
    (h : f.infinity < f.steps m e + (f.unit m e - f.minExponent).toNat * 2 ^ f.fractionBits) :
    2 ^ (f.maxExponent + 1) ≤ (m : ℚ) * 2 ^ e := by
  have hfour : 2 ^ 2 ≤ 2 ^ f.exponentBits := Nat.pow_le_pow_right two_pos hf
  have hcast : ((2 ^ f.exponentBits : Nat) : Int) = 2 ^ f.exponentBits := by push_cast; rfl
  have hbinades : 2 ^ f.exponentBits - 1 < (f.unit m e - f.minExponent).toNat + 2 := by
    apply Nat.lt_of_mul_lt_mul_right (a := 2 ^ f.fractionBits)
    have hsteps := f.steps_le m e
    rw [Nat.pow_succ] at hsteps
    rw [infinity] at h
    rw [Nat.add_mul]
    omega
  have hunit : f.maxExponent + 1 ≤ f.fractionBits + f.unit m e := by
    rw [maxExponent]
    omega
  calc (2 : ℚ) ^ (f.maxExponent + 1) ≤ 2 ^ ((f.fractionBits : Int) + f.unit m e) :=
        zpow_le_zpow_right₀ one_le_two hunit
    _ = 2 ^ f.fractionBits * 2 ^ f.unit m e := by rw [zpow_add₀ two_ne_zero, zpow_natCast]
    _ ≤ m * 2 ^ e := two_zpow_unit_le hm (by omega)

end Format

namespace Word

variable {f : Format}

/-- A word of a sign that no other number is closer to than it, and that is even if another one is
as close. -/
structure ClosestTo (w : Word f) (negative : Bool) (x : ℚ) : Prop where
  negative_eq : w.negative = negative
  isNaN_eq : w.isNaN = false
  closest : ∀ z : Word f, z.isNaN = false → |w.point - x| ≤ |z.point - x|
  even : ∀ z : Word f, z.isNaN = false → z.point ≠ w.point →
    |w.point - x| = |z.point - x| → w.magnitude % 2 = 0

private theorem abs_signed_sub (negative : Bool) (k m : Nat) (u e : Int) :
    |(Exact.signed negative k : ℚ) * 2 ^ u - Exact.signed negative m * 2 ^ e| =
      |(k : ℚ) * 2 ^ u - m * 2 ^ e| := by
  cases negative with
  | false => rfl
  | true =>
    rw [← abs_neg]
    simp [Exact.signed]
    ring_nf

private theorem abs_neg_signed_sub (negative : Bool) (k m : Nat) (u e : Int) :
    |-((Exact.signed negative k : ℚ) * 2 ^ u) - Exact.signed negative m * 2 ^ e| =
      (k : ℚ) * 2 ^ u + m * 2 ^ e := by
  have hsum : (0 : ℚ) ≤ k * 2 ^ u + m * 2 ^ e := by positivity
  rw [← abs_of_nonneg hsum]
  cases negative with
  | false =>
    rw [← abs_neg]
    simp [Exact.signed, add_comm]
  | true => simp [Exact.signed]

private theorem closestTo_of_abs {w : Word f} {negative : Bool} {m : Nat} {e : Int} (hm : m ≠ 0)
    (hnegative : w.negative = negative) (hnan : w.isNaN = false)
    (h : ∀ z : Word f, z.isNaN = false →
      |(|w.point|) - m * 2 ^ e| ≤ |(|z.point|) - m * 2 ^ e| ∧
        (|z.point| ≠ |w.point| → |(|w.point|) - m * 2 ^ e| = |(|z.point|) - m * 2 ^ e| →
          w.magnitude % 2 = 0)) :
    w.ClosestTo negative (Exact.signed negative m * 2 ^ e) := by
  have hsize : |(Exact.signed negative m : ℚ) * 2 ^ e| = m * 2 ^ e := by
    rw [abs_mul, Exact.abs_signed, abs_of_pos (by positivity)]
  have hsame : |w.point - Exact.signed negative m * 2 ^ e| = |(|w.point|) - m * 2 ^ e| := by
    rw [abs_point, point, hnegative, abs_signed_sub]
  have hfar : ∀ z : Word f, |(|z.point|) - (m : ℚ) * 2 ^ e| ≤
      |z.point - Exact.signed negative m * 2 ^ e| := by
    intro z
    rw [← hsize]
    exact abs_abs_sub_abs_le _ _
  refine ⟨hnegative, hnan, fun z hz ↦ ?_, fun z hz hne heq ↦ ?_⟩
  · rw [hsame]
    exact (h z hz).1.trans (hfar z)
  · rw [hsame] at heq
    apply (h z hz).2
    · -- the word of the other sign is farther away
      intro habs
      have hopposite : z.point = -w.point := (abs_eq_abs.mp habs).resolve_left hne
      have hpoint : |w.point| ≠ 0 := by
        intro hzero
        rw [abs_eq_zero.mp hzero, neg_zero, ← abs_eq_zero.mp hzero] at hopposite
        exact hne hopposite
      have hpos : 0 < |w.point| := lt_of_le_of_ne (abs_nonneg _) hpoint.symm
      have hnumber : (0 : ℚ) < m * 2 ^ e := by positivity
      have hsum : |-w.point - Exact.signed negative m * 2 ^ e| = |w.point| + m * 2 ^ e := by
        rw [abs_point, point, hnegative, abs_neg_signed_sub]
      rw [hopposite, hsum] at heq
      have hcloser : |(|w.point|) - (m : ℚ) * 2 ^ e| < |w.point| + m * 2 ^ e :=
        abs_lt.mpr ⟨by linarith, by linarith⟩
      exact hcloser.ne heq
    · exact le_antisymm (h z hz).1 (heq ▸ hfar z)

private theorem closestTo_roundScaled (hf : 2 ≤ f.exponentBits) (hfraction : 0 < f.fractionBits)
    (negative : Bool) (m : Nat) (e : Int) :
    (f.roundScaled negative m e).ClosestTo negative (Exact.signed negative m * 2 ^ e) := by
  by_cases hm : m = 0
  · have hzero : (zero negative : Word f).point = 0 := by
      rw [point_of_isFinite (isFinite_zero negative (by omega)), toRat_zero]
    rw [hm, Format.roundScaled_zero, Exact.signed_zero, Int.cast_zero, zero_mul]
    refine ⟨rfl, isNaN_of_isFinite (isFinite_zero negative (by omega)), fun z _ ↦ ?_,
      fun _ _ _ _ ↦ rfl⟩
    rw [hzero, sub_zero, abs_zero]
    exact abs_nonneg _
  have hnan : (f.roundScaled negative m e).isNaN = false := by
    rw [Format.roundScaled_eq negative hm, isNaN_saturated]
  obtain ⟨half, hhalf⟩ : 2 ∣ 2 ^ f.fractionBits := Dvd.intro_left _ (Nat.pow_pred_mul hfraction)
  apply closestTo_of_abs hm (Format.negative_roundScaled ..) hnan
  intro z hz
  rcases Nat.lt_or_ge f.infinity
    (f.steps m e + (f.unit m e - f.minExponent).toNat * 2 ^ f.fractionBits) with hlt | hle
  · -- everything is on one side of the number, and the infinity comes last
    have hinfinite : f.roundScaled negative m e = infinite negative := by
      apply Word.ext
      · exact Format.negative_roundScaled f negative m e
      · rw [Format.magnitude_roundScaled hm]
        exact Nat.min_eq_right hlt.le
    have hbeyond := Format.two_zpow_le_of_infinity_lt hf hm hlt
    have hlimit := abs_point_le hf hz
    rw [hinfinite, abs_point_infinite hf, abs_of_nonpos (by linarith), abs_of_nonpos (by linarith)]
    refine ⟨by linarith, fun _ _ ↦ ?_⟩
    show (2 ^ f.exponentBits - 1) * 2 ^ f.fractionBits % 2 = 0
    rw [hhalf, Nat.mul_left_comm, Nat.mul_mod_right]
  · have hpoint : |(f.roundScaled negative m e).point| = f.steps m e * 2 ^ f.unit m e := by
      rw [Format.point_roundScaled hm hle, abs_mul, Exact.abs_signed, abs_of_pos (by positivity)]
    obtain ⟨hclosest, heven⟩ := Format.steps_closest (e := e) hm z
    rw [hpoint]
    refine ⟨hclosest, fun hne heq ↦ ?_⟩
    have hsteps := heven hne heq
    rw [Format.magnitude_roundScaled hm, Nat.min_eq_left hle, hhalf, Nat.mul_left_comm]
    omega

end Word

/-- A word of a format is what an exact value is rounded to. -/
def Exact.RoundsTo {f : Format} : Exact → Word f → Prop
  | .nan, w => w.isNaN
  | .infinite negative, w => w = Word.infinite negative
  | .finite negative m e, w => w.ClosestTo negative (signed negative m * 2 ^ e)

/-- Every operation rounds its exact result to the closest word. -/
theorem Exact.roundsTo_toWord {f : Format} (hf : 2 ≤ f.exponentBits)
    (hfraction : 0 < f.fractionBits) (x : Exact) : x.RoundsTo (x.toWord f) := by
  cases x with
  | nan => exact Word.isNaN_toWord_nan hfraction
  | infinite negative => rfl
  | finite negative m e => exact Word.closestTo_roundScaled hf hfraction negative m e

end IndexedCodebook
