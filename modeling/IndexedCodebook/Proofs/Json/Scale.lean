import IndexedCodebook.Json.Number
import IndexedCodebook.Proofs.Decimal.Double

/-!
# Scaling by powers of ten in double precision

`Number.scale` rounds twice, or once if the power of ten is a double-precision number. A short
decimal number that is scaled by another power of ten is no boundary of single precision
(`natAbs_le_of_eq_boundary`). So scaling reads short decimal numbers up to a small error, and the
boundaries among them exactly (`readsNear_scale`).
-/

namespace IndexedCodebook

open Decimal

private theorem le_of_pow_ten_dvd {m k j : Nat} (hm : 0 < m) (hm' : m < 5 ^ 23)
    (h : 10 ^ k ∣ m * 2 ^ j) :
    k ≤ 22 := by
  -- the fives of the tens can only be in the integer
  have hfives : 5 ^ k ∣ m * 2 ^ j := (pow_dvd_pow_of_dvd (by decide) k).trans h
  have hcoprime : Nat.Coprime (5 ^ k) (2 ^ j) := Nat.Coprime.pow k j (by decide)
  have hle := Nat.le_of_dvd hm (hcoprime.dvd_of_dvd_mul_right hfives)
  have hlt : 5 ^ k < 5 ^ 23 := lt_of_le_of_lt hle hm'
  rw [Nat.pow_lt_pow_iff_right (by decide)] at hlt
  omega

private theorem natAbs_le_of_mul_zpow_eq {c m : Nat} {p e : Int} (hc : 0 < c) (hc' : c < 5 ^ 23)
    (hm : 0 < m) (hm' : m < 5 ^ 23) (h : (c : ℚ) * 10 ^ p = m * 2 ^ e) : p.natAbs ≤ 22 := by
  obtain ⟨scale, hpos, hten, htwo⟩ := exists_scale p e
  rw [hten, htwo, mul_left_comm, mul_left_comm (m : ℚ), mul_right_inj' hpos.ne'] at h
  have hnat : c * (10 ^ p.toNat * 2 ^ (-e).toNat) = m * (10 ^ (-p).toNat * 2 ^ e.toNat) := by
    exact_mod_cast h
  rcases Int.le_total 0 p with hp | hp
  · have hzero : (-p).toNat = 0 := by omega
    rw [hzero, Nat.pow_zero, Nat.one_mul] at hnat
    have hdvd : 10 ^ p.toNat ∣ m * 2 ^ e.toNat := hnat ▸ ⟨c * 2 ^ (-e).toNat, by ring⟩
    have := le_of_pow_ten_dvd hm hm' hdvd
    omega
  · have hzero : p.toNat = 0 := by omega
    rw [hzero, Nat.pow_zero, Nat.one_mul] at hnat
    have hdvd : 10 ^ (-p).toNat ∣ c * 2 ^ (-e).toNat := hnat ▸ ⟨m * 2 ^ e.toNat, by ring⟩
    have := le_of_pow_ten_dvd hc hc' hdvd
    omega

private theorem natAbs_le_of_eq_boundary {c n : Nat} {p : Int} (hc : 0 < c) (hc' : c < 5 ^ 23)
    (h : (c : ℚ) * 10 ^ p = binary32.boundary n) : p.natAbs ≤ 22 := by
  have hcount : binary32.count n < 2 ^ 24 := binary32.count_lt n
  exact natAbs_le_of_mul_zpow_eq hc hc' (by omega) (by omega) h

namespace Json.Number

private theorem ten_pow_le {k : Nat} (hk : k ≤ 230) : (10 : ℚ) ^ k ≤ 2 ^ (920 : Int) := by
  calc (10 : ℚ) ^ k ≤ (2 ^ 4) ^ k := by gcongr; norm_num
    _ = 2 ^ (4 * k) := (pow_mul ..).symm
    _ ≤ 2 ^ 920 := pow_le_pow_right₀ one_le_two (by omega)
    _ = 2 ^ (920 : Int) := (zpow_natCast ..).symm

private theorem rounds_powerOfTen (k : Nat) : (powerOfTen k).Rounds (10 ^ k) := by
  have := Word.rounds_ofNat (f := binary64) (10 ^ k)
  rwa [Nat.cast_pow, Nat.cast_ofNat] at this

private theorem powerOfTen_of_le {k : Nat} (hk : k ≤ 22) :
    (powerOfTen k).isFinite ∧ binary64.number (powerOfTen k).magnitude = 10 ^ k := by
  have hten : (10 : ℚ) ^ k = (5 ^ k : Nat) * 2 ^ (k : Int) := by
    rw [zpow_natCast, Nat.cast_pow, Nat.cast_ofNat, ← mul_pow]
    norm_num
  have hrounds := rounds_powerOfTen k
  have hfive : 5 ^ k ≤ 5 ^ 22 := Nat.pow_le_pow_right (by decide) hk
  rw [hten] at hrounds ⊢
  exact Double.eq_scaled hrounds (by omega) (by omega) (by omega)

private theorem powerOfTen_near {k : Nat} (hk : k ≤ 230) :
    (powerOfTen k).isFinite ∧
      |binary64.number (powerOfTen k).magnitude - 10 ^ k| ≤ 10 ^ k / 2 ^ 53 := by
  refine Double.near (rounds_powerOfTen k) ?_ ?_
  · exact (zpow_le_one_of_nonpos₀ one_le_two (by decide)).trans (one_le_pow₀ (by norm_num))
  · exact (ten_pow_le hk).trans (zpow_le_zpow_right₀ one_le_two (by decide))

private theorem number_powerOfTen_mem {k : Nat} (hk : k ≤ 230) :
    1 / 2 ≤ binary64.number (powerOfTen k).magnitude ∧
      binary64.number (powerOfTen k).magnitude ≤ 2 ^ (921 : Int) := by
  have hlow : (1 : ℚ) ≤ 10 ^ k := one_le_pow₀ (by norm_num)
  have hhigh : 2 * (10 : ℚ) ^ k ≤ 2 ^ (921 : Int) := by
    rw [show (921 : Int) = 1 + 920 from rfl, zpow_one_add₀ two_ne_zero]
    gcongr
    exact ten_pow_le hk
  have hnear := abs_le.mp (powerOfTen_near hk).2
  generalize (10 : ℚ) ^ k = tens at *
  constructor
  · linarith [hnear.1]
  · refine le_trans ?_ hhigh
    linarith [hnear.2]

private theorem magnitude_powerOfTen_ne_zero {k : Nat} (hk : k ≤ 230) :
    (powerOfTen k).magnitude ≠ 0 := by
  intro hzero
  have hlow := (number_powerOfTen_mem hk).1
  rw [hzero] at hlow
  norm_num [Format.number, Format.count] at hlow

private theorem ofNat_of_lt {c : Nat} (hc : c < 2 ^ 53) :
    (Word.ofNat binary64 c).isFinite ∧
      binary64.number (Word.ofNat binary64 c).magnitude = c := by
  have hrounds := Word.rounds_ofNat (f := binary64) c
  rw [← mul_one (c : ℚ), ← zpow_zero 2] at hrounds
  have := Double.eq_scaled hrounds hc (by decide) (by decide)
  rwa [zpow_zero, mul_one] at this

private theorem near_mul {c t T y : ℚ} (hc : 0 < c) (hT : 0 < T) (ht : |t - T| ≤ T / 2 ^ 53)
    (hy : |y - c * t| ≤ c * t / 2 ^ 53) : |y - c * T| ≤ 3 * (c * T) / 2 ^ 53 := by
  have hpos : 0 < c * T := by positivity
  obtain ⟨hlow, hhigh⟩ := abs_le.mp ht
  have hproduct : |c * t - c * T| ≤ c * T / 2 ^ 53 := by
    rw [← mul_sub, abs_mul, abs_of_pos hc, mul_div_assoc]
    gcongr
  have hle : c * t ≤ c * T + c * T / 2 ^ 53 := by linarith [(abs_le.mp hproduct).2]
  calc |y - c * T| ≤ |y - c * t| + |c * t - c * T| := abs_sub_le ..
    _ ≤ c * t / 2 ^ 53 + c * T / 2 ^ 53 := add_le_add hy hproduct
    _ ≤ 3 * (c * T) / 2 ^ 53 := by linarith

private theorem near_div {c t T y : ℚ} (hc : 0 < c) (hT : 0 < T) (ht : |t - T| ≤ T / 2 ^ 53)
    (hy : |y - c / t| ≤ c / t / 2 ^ 53) : |y - c / T| ≤ 3 * (c / T) / 2 ^ 53 := by
  obtain ⟨hlow, hhigh⟩ := abs_le.mp ht
  have htpos : 0 < t := by linarith
  have hle : c / t * (1 - 1 / 2 ^ 53) ≤ c / T := by
    rw [div_mul_eq_mul_div, div_le_div_iff₀ htpos hT, mul_assoc]
    gcongr
    linarith
  have hquotient : |c / t - c / T| ≤ c / t / 2 ^ 53 := by
    have hsub : c / t - c / T = c / t * ((T - t) / T) := by field_simp
    have hrelative : |T - t| / T ≤ 1 / 2 ^ 53 := by
      rw [abs_sub_comm, div_le_iff₀ hT]
      linarith
    rw [hsub, abs_mul, abs_of_pos (by positivity : 0 < c / t), abs_div, abs_of_pos hT,
      div_eq_mul_one_div (c / t)]
    gcongr
  have hpos : 0 < c / t := by positivity
  calc |y - c / T| ≤ |y - c / t| + |c / t - c / T| := abs_sub_le ..
    _ ≤ c / t / 2 ^ 53 + c / t / 2 ^ 53 := add_le_add hy hquotient
    _ ≤ 3 * (c / T) / 2 ^ 53 := by linarith

private theorem divide_of_le (x : Double) {k : Nat} (hk : k ≤ 308) :
    divide x k = x.div (powerOfTen k) := by
  rw [divide, dif_pos (.inl hk), if_pos hk]

private theorem readsNear_of_tens {c : Nat} {p : Int} {q : ℚ} {y : Double} (hc : 0 < c)
    (hc' : c < 2 ^ 53) (hfew : p.natAbs ≤ 22 → q = c * 10 ^ p)
    (hy : y.Rounds q) (hlow : 2 ^ (-1000 : Int) ≤ q) (hhigh : q ≤ 2 ^ (1000 : Int))
    (hnear : |binary64.number y.magnitude - q| ≤ q / 2 ^ 53 →
      |binary64.number y.magnitude - c * 10 ^ p| ≤ 3 * (c * 10 ^ p) / 2 ^ 53) :
    ReadsNear (c * 10 ^ p) y := by
  by_cases hp : p.natAbs ≤ 22
  · rw [← hfew hp]
    exact .of_rounds hy hlow hhigh
  · obtain ⟨hfinite, hdist⟩ := Double.near hy hlow hhigh
    refine ⟨hfinite, hnear hdist, fun n hn heq ↦ ?_⟩
    -- A boundary has so few tens that only the result is rounded, which was the other case.
    exact absurd (natAbs_le_of_eq_boundary hc (by omega) heq) hp

section

variable {c k : Nat} (hc : 0 < c) (hc' : c < 2 ^ 53) (hk : k ≤ 230)

include hc hc' hk

private theorem readsNear_mul :
    ReadsNear (c * 10 ^ k) ((Word.ofNat binary64 c).mul (powerOfTen k)) ∧
    (k ≤ 22 → ((Word.ofNat binary64 c).mul (powerOfTen k)).Rounds (c * 10 ^ k)) := by
  obtain ⟨hx, hxnumber⟩ := ofNat_of_lt hc'
  obtain ⟨ht, htnear⟩ := powerOfTen_near hk
  obtain ⟨htlow, hthigh⟩ := number_powerOfTen_mem hk
  have hclow : (1 : ℚ) ≤ c := by exact_mod_cast hc
  have hchigh : (c : ℚ) ≤ 2 ^ (53 : Int) := by exact_mod_cast hc'.le
  have hcpos : (0 : ℚ) < c := by linarith
  have hrounds := Word.rounds_mul hx ht
  rw [hxnumber] at hrounds
  refine ⟨?_, fun h ↦ by rwa [(powerOfTen_of_le h).2] at hrounds⟩
  rw [← zpow_natCast]
  refine readsNear_of_tens hc hc' (fun h ↦ ?_) hrounds ?_ ?_ fun h ↦ ?_
  · rw [(powerOfTen_of_le (by omega)).2, zpow_natCast]
  · calc (2 : ℚ) ^ (-1000 : Int) ≤ 2 ^ (-1 : Int) := zpow_le_zpow_right₀ one_le_two (by decide)
      _ = 1 * (1 / 2) := by rw [zpow_neg_one, one_mul, one_div]
      _ ≤ c * binary64.number (powerOfTen k).magnitude := by gcongr
  · calc (c : ℚ) * binary64.number (powerOfTen k).magnitude
        ≤ 2 ^ (53 : Int) * 2 ^ (921 : Int) := by gcongr
      _ = 2 ^ (53 + 921 : Int) := (zpow_add₀ two_ne_zero ..).symm
      _ ≤ 2 ^ (1000 : Int) := zpow_le_zpow_right₀ one_le_two (by decide)
  · rw [zpow_natCast]
    exact near_mul hcpos (by positivity) htnear h

private theorem readsNear_div :
    ReadsNear (c / 10 ^ k) ((Word.ofNat binary64 c).div (powerOfTen k)) ∧
    (k ≤ 22 → ((Word.ofNat binary64 c).div (powerOfTen k)).Rounds (c / 10 ^ k)) := by
  obtain ⟨hx, hxnumber⟩ := ofNat_of_lt hc'
  obtain ⟨ht, htnear⟩ := powerOfTen_near hk
  obtain ⟨htlow, hthigh⟩ := number_powerOfTen_mem hk
  have hclow : (1 : ℚ) ≤ c := by exact_mod_cast hc
  have hchigh : (c : ℚ) ≤ 2 ^ (53 : Int) := by exact_mod_cast hc'.le
  have hcpos : (0 : ℚ) < c := by linarith
  have htpos : 0 < binary64.number (powerOfTen k).magnitude := by linarith
  have hrounds := Word.rounds_div hx ht (magnitude_powerOfTen_ne_zero hk)
  rw [hxnumber] at hrounds
  refine ⟨?_, fun h ↦ by rwa [(powerOfTen_of_le h).2] at hrounds⟩
  have hten : (c : ℚ) / 10 ^ k = c * 10 ^ (-k : Int) := by
    rw [zpow_neg, zpow_natCast, div_eq_mul_inv]
  rw [hten]
  refine readsNear_of_tens hc hc' (fun h ↦ ?_) hrounds ?_ ?_ fun h ↦ ?_
  · rw [(powerOfTen_of_le (by omega)).2, hten]
  · rw [le_div_iff₀ htpos]
    calc (2 : ℚ) ^ (-1000 : Int) * binary64.number (powerOfTen k).magnitude
        ≤ 2 ^ (-1000 : Int) * 2 ^ (921 : Int) := by gcongr
      _ = 2 ^ (-1000 + 921 : Int) := (zpow_add₀ two_ne_zero ..).symm
      _ ≤ 1 := zpow_le_one_of_nonpos₀ one_le_two (by decide)
      _ ≤ c := hclow
  · calc (c : ℚ) / binary64.number (powerOfTen k).magnitude
        ≤ 2 ^ (53 : Int) / (1 / 2) := by gcongr
      _ = 2 ^ (53 + 1 : Int) := by rw [zpow_add_one₀ two_ne_zero, div_div_eq_mul_div, div_one]
      _ ≤ 2 ^ (1000 : Int) := zpow_le_zpow_right₀ one_le_two (by decide)
  · rw [← hten]
    exact near_div hcpos (by positivity) htnear h

end

/-- Scaling rounds a product or a quotient with a power of ten that is rounded itself. With few tens
it rounds once. -/
theorem readsNear_scale {c : Nat} {p : Int} (hc : 0 < c) (hc' : c < 2 ^ 53)
    (hp : p.natAbs ≤ 230) :
    ∃ y, scale c p = some y ∧ y.negative = false ∧ ReadsNear (c * 10 ^ p) y ∧
      (p.natAbs ≤ 22 → y.Rounds (c * 10 ^ p)) := by
  have hx := (ofNat_of_lt hc').1
  have ht := (powerOfTen_near hp).1
  rcases Int.lt_or_le p 0 with hnegative | hnonneg
  · have hten : (c : ℚ) * 10 ^ p = c / 10 ^ p.natAbs := by
      rw [← zpow_natCast, Int.ofNat_natAbs_of_nonpos hnegative.le, zpow_neg, div_inv_eq_mul]
    rw [hten]
    refine ⟨(Word.ofNat binary64 c).div (powerOfTen p.natAbs), ?_, ?_, readsNear_div hc hc' hp⟩
    · rw [scale, if_pos hnegative, divide_of_le _ (by omega)]
    · rw [Word.negative_div hx ht (magnitude_powerOfTen_ne_zero hp)]
      simp [powerOfTen]
  · have hten : (c : ℚ) * 10 ^ p = c * 10 ^ p.natAbs := by
      rw [← zpow_natCast, Int.natAbs_of_nonneg hnonneg]
    obtain ⟨hreads, hfew⟩ := readsNear_mul hc hc' hp
    rw [hten]
    refine ⟨(Word.ofNat binary64 c).mul (powerOfTen p.natAbs), ?_, ?_, hreads, hfew⟩
    · have hlt : ((Word.ofNat binary64 c).mul (powerOfTen p.natAbs)).magnitude <
          binary64.infinity := of_decide_eq_true hreads.finite
      have hnot : ((Word.ofNat binary64 c).mul (powerOfTen p.natAbs)).isInfinite = false :=
        decide_eq_false hlt.ne
      rw [scale, if_neg (by omega), if_pos (by omega)]
      simp [hnot]
    · rw [Word.negative_mul hx ht]
      simp [powerOfTen]

end Json.Number

end IndexedCodebook
