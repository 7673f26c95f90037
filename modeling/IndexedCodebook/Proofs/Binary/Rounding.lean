import Mathlib.Algebra.Group.Nat.Defs
import IndexedCodebook.Binary.Rounding

/-!
# Rounding a scaled integer

`Format.roundScaled` divides a significand by the spacing of the format at its size. With `unit` the
exponent of that spacing, `roundScaled_eq` reads the result as one rounded division; a power of two
may move between significand and exponent (`roundScaled_mul_two_pow`), and nothing is lost if the
exponent is not below the unit (`roundScaled_of_unit_le`).

`roundDiv_truncate_eq_iff` is about rounding twice: dropping the last bits of a number before a
rounded division changes the quotient only just above a tie that would go down.
-/

namespace IndexedCodebook

section Quotients

/-- A number cut down to a multiple of `c` keeps the multiples of `c` that were added to it. -/
theorem cut_add_mul (n k : Nat) {c : Nat} (hc : 0 < c) :
    (n + k * c) / c * c = n / c * c + k * c := by
  rw [Nat.add_mul_div_right _ _ hc, Nat.add_mul]

/-- Zero is rounded to itself. -/
@[simp] theorem roundDiv_zero (den : Nat) : roundDiv 0 den = 0 := by
  simp [roundDiv, Nat.pos_iff_ne_zero, eq_comm]

private theorem roundDiv_mul_mul_left (num den : Nat) {c : Nat} (hc : 0 < c) :
    roundDiv (c * num) (c * den) = roundDiv num den := by
  have hlt : 2 * (c * (num % den)) < c * den ↔ 2 * (num % den) < den := by
    rw [Nat.mul_left_comm, Nat.mul_lt_mul_left hc]
  have heq : 2 * (c * (num % den)) = c * den ↔ 2 * (num % den) = den := by
    rw [Nat.mul_left_comm, Nat.mul_right_inj (Nat.pos_iff_ne_zero.mp hc)]
  simp only [roundDiv, Nat.mul_div_mul_left _ _ hc, Nat.mul_mod_mul_left, hlt, heq]

/-- An even number of divisors is added to the quotient. -/
theorem roundDiv_add_mul (num k : Nat) {den : Nat} (hden : 0 < den) :
    roundDiv (num + 2 * k * den) den = roundDiv num den + 2 * k := by
  simp only [roundDiv, Nat.add_mul_div_right _ _ hden, Nat.add_mul_mod_self_right]
  split <;> split <;> omega

private theorem roundDiv_mul_two_pow (m : Nat) {a b c d : Nat} (h : a + d = c + b) :
    roundDiv (m * 2 ^ a) (2 ^ b) = roundDiv (m * 2 ^ c) (2 ^ d) := by
  have hscale : ∀ x y k : Nat,
      roundDiv (m * 2 ^ (x + k)) (2 ^ (y + k)) = roundDiv (m * 2 ^ x) (2 ^ y) := by
    intro x y k
    rw [Nat.pow_add, Nat.pow_add, ← Nat.mul_assoc, Nat.mul_comm _ (2 ^ k),
      Nat.mul_comm _ (2 ^ k), roundDiv_mul_mul_left _ _ (Nat.two_pow_pos k)]
  rcases Nat.le_total a c with hle | hle
  · obtain ⟨k, rfl⟩ := Nat.exists_eq_add_of_le hle
    obtain rfl : d = b + k := by omega
    exact (hscale a b k).symm
  · obtain ⟨k, rfl⟩ := Nat.exists_eq_add_of_le hle
    obtain rfl : b = d + k := by omega
    exact hscale c d k

/-- A rounded quotient is at most a whole number that the exact one is below. -/
theorem roundDiv_le {num den n : Nat} (h : num < n * den) : roundDiv num den ≤ n := by
  have hlt : num / den < n := Nat.div_lt_of_lt_mul (Nat.mul_comm n den ▸ h)
  simp only [roundDiv]
  split <;> omega

private theorem cut_div_mod (num : Nat) {c den : Nat} (hden : 0 < den) (hdvd : c ∣ den) :
    num / c * c / den = num / den ∧ num / c * c % den = num % den / c * c := by
  obtain ⟨j, rfl⟩ := hdvd
  have hc : 0 < c := Nat.pos_of_mul_pos_right hden
  have hcut : num / c * c = num % (c * j) / c * c + num / (c * j) * (c * j) := by
    have hmul : num / (c * j) * (c * j) = num / (c * j) * j * c := by
      rw [Nat.mul_comm c j, Nat.mul_assoc]
    rw [hmul, ← cut_add_mul _ _ hc, ← hmul, Nat.mod_add_div']
  have hlt : num % (c * j) / c * c < c * j :=
    Nat.lt_of_le_of_lt (Nat.div_mul_le_self ..) (Nat.mod_lt _ hden)
  constructor
  · rw [hcut, Nat.add_mul_div_right _ _ hden, Nat.div_eq_of_lt hlt, Nat.zero_add]
  · rw [hcut, Nat.add_mul_mod_self_right, Nat.mod_eq_of_lt hlt]

/-- Cutting a number down to a multiple of `c` before it is divided changes the rounded quotient
only just above a tie that would go down. -/
theorem roundDiv_truncate_eq_iff {num c half : Nat} (hhalf : 0 < half) (hdvd : c ∣ half) :
    roundDiv (num / c * c) (2 * half) = roundDiv num (2 * half) ↔
      ¬ (num / (2 * half) % 2 = 0 ∧ half < num % (2 * half) ∧
        num % (2 * half) < half + c) := by
  have hden : 0 < 2 * half := by omega
  have hc : 0 < c := Nat.pos_of_dvd_of_pos hdvd hhalf
  obtain ⟨hq, hr⟩ := cut_div_mod num hden (Nat.dvd_mul_left_of_dvd hdvd 2)
  simp only [roundDiv, hq, hr]
  generalize num / (2 * half) = q
  generalize num % (2 * half) = r
  have hle : r / c * c ≤ r := Nat.div_mul_le_self r c
  have hlt : r < r / c * c + c := Nat.lt_div_mul_add hc
  -- The cut remainder and half the divisor are multiples of `c`.
  obtain ⟨j, rfl⟩ := hdvd
  rcases Nat.lt_trichotomy (r / c) j with hbelow | hat | habove
  · have hstep : (r / c + 1) * c ≤ j * c := Nat.mul_le_mul_right c hbelow
    rw [Nat.succ_mul, Nat.mul_comm j] at hstep
    split <;> split <;> omega
  · have hsame : r / c * c = c * j := by rw [hat, Nat.mul_comm]
    split <;> split <;> omega
  · have hstep : (j + 1) * c ≤ r / c * c := Nat.mul_le_mul_right c habove
    rw [Nat.succ_mul, Nat.mul_comm j] at hstep
    split <;> split <;> omega

end Quotients

/-- The leading bit of a product with a power of two. -/
theorem log2_mul_two_pow {m : Nat} (hm : m ≠ 0) (k : Nat) : (m * 2 ^ k).log2 = m.log2 + k := by
  have hpos : 0 < 2 ^ k := Nat.two_pow_pos k
  rw [Nat.log2_eq_iff (Nat.mul_ne_zero hm (Nat.pos_iff_ne_zero.mp hpos)), Nat.pow_add,
    Nat.add_right_comm, Nat.pow_add]
  exact ⟨Nat.mul_le_mul_right _ (Nat.log2_self_le hm),
    Nat.mul_lt_mul_of_pos_right Nat.lt_log2_self hpos⟩

/-- Clearing bits below a power of two leaves the number at least that power. -/
theorem two_pow_le_cut {m k t : Nat} (hk : k ≤ t) (h : 2 ^ t ≤ m) :
    2 ^ t ≤ m / 2 ^ k * 2 ^ k := by
  obtain ⟨n, rfl⟩ := Nat.exists_eq_add_of_le' hk
  rw [Nat.pow_add] at h ⊢
  exact Nat.mul_le_mul_right _ ((Nat.le_div_iff_mul_le (Nat.two_pow_pos k)).mpr h)

/-- So it leaves the leading bit where it is. -/
theorem log2_cut {m k : Nat} (hm : m ≠ 0) (hk : k ≤ m.log2) :
    (m / 2 ^ k * 2 ^ k).log2 = m.log2 := by
  have hle := two_pow_le_cut hk (Nat.log2_self_le hm)
  have hpos := Nat.two_pow_pos m.log2
  rw [Nat.log2_eq_iff (by omega)]
  exact ⟨hle, Nat.lt_of_le_of_lt (Nat.div_mul_le_self ..) Nat.lt_log2_self⟩

private theorem leadingExponent_mul_two_pow {m : Nat} (hm : m ≠ 0) (a b : Nat) :
    leadingExponent (m * 2 ^ a) (2 ^ b) = m.log2 + a - b := by
  have hlog : m.log2 + a + (-((m.log2 + a : Nat) - (b : Int))).toNat =
      b + ((m.log2 + a : Nat) - (b : Int)).toNat := by omega
  have hle : 2 ^ b * 2 ^ ((m.log2 + a : Nat) - (b : Int)).toNat ≤
      m * 2 ^ a * 2 ^ (-((m.log2 + a : Nat) - (b : Int))).toNat := by
    rw [← Nat.pow_add, ← hlog, Nat.pow_add, Nat.pow_add]
    exact Nat.mul_le_mul_right _ (Nat.mul_le_mul_right _ (Nat.log2_self_le hm))
  simp only [leadingExponent, log2_mul_two_pow hm, Nat.log2_two_pow]
  rw [if_pos hle]
  omega

namespace Format

variable (f : Format)

/-- The exponent of the last place of the format's numbers at the size of `± m · 2 ^ e`. -/
def unit (m : Nat) (e : Int) : Int := max f.minExponent (m.log2 + e - f.fractionBits)

variable {f} {m : Nat} {e : Int} (negative : Bool)

/-- Nothing is left of zero but its sign. -/
@[simp] theorem roundScaled_zero : f.roundScaled negative 0 e = Word.zero negative := by
  simp [roundScaled, round]

/-- Rounding is one rounded division by the unit. -/
theorem roundScaled_eq (hm : m ≠ 0) :
    f.roundScaled negative m e =
      Word.saturated negative
        (roundDiv (m * 2 ^ (e - f.unit m e).toNat) (2 ^ (f.unit m e - e).toNat) +
          (f.unit m e - f.minExponent).toNat * 2 ^ f.fractionBits) := by
  have hpos : m * 2 ^ e.toNat ≠ 0 :=
    Nat.mul_ne_zero hm (Nat.pos_iff_ne_zero.mp (Nat.two_pow_pos _))
  have hunit : f.spacing (m * 2 ^ e.toNat) (2 ^ (-e).toNat) = f.unit m e := by
    rw [spacing, leadingExponent_mul_two_pow hm, unit]
    omega
  have hscale : roundDiv (m * 2 ^ e.toNat * 2 ^ (-f.unit m e).toNat)
      (2 ^ (-e).toNat * 2 ^ (f.unit m e).toNat) =
      roundDiv (m * 2 ^ (e - f.unit m e).toNat) (2 ^ (f.unit m e - e).toNat) := by
    rw [Nat.mul_assoc, ← Nat.pow_add, ← Nat.pow_add]
    apply roundDiv_mul_two_pow
    omega
  simp only [roundScaled, round, if_neg hpos, hunit, hscale]

/-- A power of two may move between significand and exponent. -/
theorem roundScaled_mul_two_pow (m k : Nat) :
    f.roundScaled negative (m * 2 ^ k) e = f.roundScaled negative m (e + k) := by
  by_cases hm : m = 0
  · simp [hm]
  · have hmul : m * 2 ^ k ≠ 0 :=
      Nat.mul_ne_zero hm (Nat.pos_iff_ne_zero.mp (Nat.two_pow_pos k))
    have hunit : f.unit (m * 2 ^ k) e = f.unit m (e + k) := by
      rw [unit, unit, log2_mul_two_pow hm]
      omega
    rw [roundScaled_eq negative hmul, roundScaled_eq negative hm, hunit, Nat.mul_assoc,
      ← Nat.pow_add]
    congr 2
    apply roundDiv_mul_two_pow
    omega

/-- Nothing is rounded off if the exponent is not below the unit. -/
theorem roundScaled_of_unit_le (hm : m ≠ 0) (h : f.unit m e ≤ e) :
    f.roundScaled negative m e =
      Word.saturated negative (m * 2 ^ (e - f.unit m e).toNat +
        (f.unit m e - f.minExponent).toNat * 2 ^ f.fractionBits) := by
  have hone : (f.unit m e - e).toNat = 0 := by omega
  have hwhole := roundDiv_mul_right (m * 2 ^ (e - f.unit m e).toNat) Nat.one_pos
  rw [Nat.mul_one] at hwhole
  rw [roundScaled_eq negative hm, hone, Nat.pow_zero, hwhole]

end Format

end IndexedCodebook
