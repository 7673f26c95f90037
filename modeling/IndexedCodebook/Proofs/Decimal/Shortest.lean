import IndexedCodebook.Decimal.Shortest
import IndexedCodebook.Proofs.Binary.Boundary

/-!
# The shortest digits of a word

`Decimal.toRat` is the number that a decimal number stands for. What `Decimal.shortest` finds for a
word is rounded to its magnitude (`readsAs_shortest`), has no zero at the end, and lies on the first
grid that has such a number (`exists_shortest`). The nearest number of nine digits always reads back
in single precision (`exists_digitsAt_ninth`). So the digits found for a single-precision word are
either eight at most or those of the nearest number of nine (`shortest_single`).
-/

namespace IndexedCodebook

private theorem pow_length_toDigits {n : Nat} (h : 0 < n) :
    10 ^ ((Nat.toDigits 10 n).length - 1) ≤ n ∧ n < 10 ^ (Nat.toDigits 10 n).length := by
  have hlength : 0 < (Nat.toDigits 10 n).length := Nat.length_toDigits_pos
  refine ⟨?_, (Nat.length_toDigits_le_iff (by decide) hlength).mp le_rfl⟩
  by_contra hlt
  rcases Nat.eq_zero_or_pos ((Nat.toDigits 10 n).length - 1) with hzero | hpos
  · rw [hzero] at hlt
    omega
  · have := (Nat.length_toDigits_le_iff (by decide) hpos).mpr (Nat.lt_of_not_le hlt)
    omega

private theorem exists_of_findSome?_range {α : Type} {g : Nat → Option α} {n : Nat} {a : α}
    (h : (List.range n).findSome? g = some a) : ∃ i, g i = some a ∧ ∀ j < i, g j = none := by
  obtain ⟨before, i, after, hrange, hi, hnone⟩ := List.findSome?_eq_some_iff.mp h
  refine ⟨i, hi, fun j hj ↦ hnone j ?_⟩
  have hsorted := List.pairwise_lt_range (n := n)
  rw [hrange, List.pairwise_append, List.pairwise_cons] at hsorted
  have hin : i ∈ List.range n := by simp [hrange]
  have hjn : j ∈ List.range n := by
    rw [List.mem_range] at hin ⊢
    omega
  rw [hrange, List.mem_append, List.mem_cons] at hjn
  rcases hjn with hbefore | rfl | hafter
  · exact hbefore
  · omega
  · have := hsorted.2.1.1 j hafter
    omega

namespace Decimal

/-- The number that a decimal number stands for. -/
def toRat (d : Decimal) : ℚ := d.coefficient * 10 ^ d.exponent

/-- The fraction of a decimal number is that number. -/
theorem num_div_den (d : Decimal) : (d.num : ℚ) / d.den = d.toRat := by
  rw [toRat, zpow_eq_pow_div_pow (by norm_num) d.exponent, num, den]
  push_cast
  ring

/-- The denominator of a decimal number is a power of ten. -/
theorem den_pos (d : Decimal) : 0 < d.den := Nat.pow_pos (by decide)

private theorem readsAs_iff {f : Format} {w : Word f} (hf : 0 < f.fractionBits) (hw : w.isFinite)
    (d : Decimal) : readsAs w d = true ↔ f.RoundsTo w.magnitude d.toRat := by
  rw [readsAs, beq_iff_eq,
    Format.magnitude_round_eq_iff d.den_pos hf (of_decide_eq_true hw), num_div_den]

/-! ## Trailing zeros -/

/-- Without its trailing zeros a number is the same. -/
@[simp] theorem toRat_trim (d : Decimal) : d.trim.toRat = d.toRat := by
  induction d using trim.induct with
  | case1 d h ih =>
    obtain ⟨k, hk⟩ : 10 ∣ d.coefficient := Nat.dvd_of_mod_eq_zero h.2
    rw [trim, if_pos h, ih, toRat, toRat, hk, Nat.mul_div_cancel_left _ (by decide),
      zpow_add_one₀ (by norm_num)]
    push_cast
    ring
  | case2 d h => rw [trim, if_neg h]

private theorem coefficient_trim_le (d : Decimal) : d.trim.coefficient ≤ d.coefficient := by
  induction d using trim.induct with
  | case1 d h ih =>
    rw [trim, if_pos h]
    exact ih.trans (Nat.div_le_self ..)
  | case2 d h => rw [trim, if_neg h]

/-- A number without trailing zeros. -/
def IsTrimmed (d : Decimal) : Prop := d.coefficient ≠ 0 → d.coefficient % 10 ≠ 0

/-- No trailing zeros are left. -/
theorem isTrimmed_trim (d : Decimal) : d.trim.IsTrimmed := by
  induction d using trim.induct with
  | case1 d h ih => rwa [trim, if_pos h]
  | case2 d h =>
    rw [trim, if_neg h]
    exact fun hne hzero ↦ h ⟨hne, hzero⟩

/-- A positive number has a positive coefficient. -/
theorem coefficient_pos {d : Decimal} (h : 0 < d.toRat) : 0 < d.coefficient := by
  rw [Nat.pos_iff_ne_zero]
  intro hzero
  rw [toRat, hzero, Nat.cast_zero, zero_mul] at h
  exact h.false

/-- Numbers that are equal have the same digits, if they are positive and without trailing zeros. -/
theorem IsTrimmed.eq_of_toRat_eq {d e : Decimal} (hd : d.IsTrimmed) (he : e.IsTrimmed)
    (hpos : 0 < d.toRat) (h : d.toRat = e.toRat) : d = e := by
  -- the number with the lower exponent would end in a zero
  have hle : ∀ {d e : Decimal}, d.IsTrimmed → 0 < d.toRat → d.toRat = e.toRat →
      e.exponent ≤ d.exponent := by
    intro d e hd hpos h
    by_contra hlt
    rw [Int.not_le] at hlt
    obtain ⟨k, hk⟩ := Int.exists_add_of_le (Int.add_one_le_of_lt hlt)
    rw [toRat, toRat, hk, zpow_add₀ (by norm_num), zpow_add₀ (by norm_num), zpow_one,
      zpow_natCast] at h
    have hten : (d.coefficient : ℚ) = e.coefficient * 10 ^ k * 10 := by
      have : (10 : ℚ) ^ d.exponent ≠ 0 := by positivity
      rw [← mul_left_inj' this, h]
      ring
    have hmul : d.coefficient = e.coefficient * 10 ^ k * 10 := by exact_mod_cast hten
    exact hd (coefficient_pos hpos).ne' (hmul ▸ Nat.mul_mod_left ..)
  have hexponent : d.exponent = e.exponent := le_antisymm (hle he (h ▸ hpos) h.symm) (hle hd hpos h)
  obtain ⟨c, p⟩ := d
  obtain ⟨c', p'⟩ := e
  obtain rfl : p = p' := hexponent
  have hne : (10 : ℚ) ^ p ≠ 0 := by positivity
  have hc : (c : ℚ) = c' := mul_right_cancel₀ hne h
  obtain rfl : c = c' := by exact_mod_cast hc
  rfl

end Decimal

/-! ## The first digit -/

private theorem Decimal.leadingPlace_spec {num den : Nat} (hnum : 0 < num) (hden : 0 < den) :
    (10 : ℚ) ^ leadingPlace num den ≤ num / den ∧
      (num : ℚ) / den < 10 ^ (leadingPlace num den + 1) := by
  have hpos : (0 : ℚ) < den := by exact_mod_cast hden
  have hnumpos : (0 : ℚ) < num := by exact_mod_cast hnum
  rw [leadingPlace]
  split
  · next h =>
    -- the digits of the integer part
    obtain ⟨hle, hlt⟩ := pow_length_toDigits (Nat.div_pos h hden)
    have hlength : 0 < (Nat.toDigits 10 (num / den)).length := Nat.length_toDigits_pos
    generalize (Nat.toDigits 10 (num / den)).length = length at *
    obtain ⟨k, rfl⟩ := Nat.exists_eq_add_one_of_ne_zero hlength.ne'
    rw [Nat.le_div_iff_mul_le hden] at hle
    rw [Nat.div_lt_iff_lt_mul hden] at hlt
    push_cast
    rw [add_sub_cancel_right, le_div_iff₀ hpos, div_lt_iff₀ hpos, zpow_natCast, ← Nat.cast_succ,
      zpow_natCast]
    exact_mod_cast And.intro hle hlt
  · next h =>
    -- the reciprocal lies above an integer and at most one further
    have hupper : den ≤ ((den + num - 1) / num - 1 + 1) * num := by
      have := Nat.lt_div_mul_add hnum (a := den + num - 1)
      have hone : 1 ≤ (den + num - 1) / num := (Nat.one_le_div_iff hnum).mpr (by omega)
      rw [Nat.sub_add_cancel hone]
      omega
    have hlower : ((den + num - 1) / num - 1) * num < den := by
      have := Nat.div_mul_le_self (den + num - 1) num
      rw [Nat.sub_mul]
      omega
    have hone : 0 < (den + num - 1) / num - 1 := by
      rw [Nat.sub_pos_iff_lt, ← Nat.succ_le_iff, Nat.le_div_iff_mul_le hnum]
      omega
    obtain ⟨hle, hlt⟩ := pow_length_toDigits hone
    have hlength : 0 < (Nat.toDigits 10 ((den + num - 1) / num - 1)).length :=
      Nat.length_toDigits_pos
    generalize (Nat.toDigits 10 ((den + num - 1) / num - 1)).length = length at *
    generalize (den + num - 1) / num - 1 = n at *
    obtain ⟨k, rfl⟩ := Nat.exists_eq_add_one_of_ne_zero hlength.ne'
    have hden' : den ≤ 10 ^ (k + 1) * num := hupper.trans (Nat.mul_le_mul_right num hlt)
    have hnum' : 10 ^ k * num < den := lt_of_le_of_lt (Nat.mul_le_mul_right num hle) hlower
    have hexponent : -((k + 1 : Nat) : Int) + 1 = -(k : Int) := by push_cast; ring
    rw [hexponent, zpow_neg, zpow_neg, zpow_natCast, zpow_natCast, le_div_iff₀ hpos,
      inv_mul_le_iff₀ (by positivity), div_lt_iff₀ hpos, lt_inv_mul_iff₀ (by positivity)]
    exact_mod_cast And.intro hden' hnum'

namespace Decimal

/-! ## Grids -/

section Grids

variable {tie : Tie} {accepts : Decimal → Bool} {num den : Nat} {place : Int}

private theorem scaled_div_scaled (num den : Nat) (place : Int) :
    ((num * 10 ^ (-place).toNat : Nat) : ℚ) / (den * 10 ^ place.toNat : Nat) =
      num / den / 10 ^ place := by
  rw [zpow_eq_pow_div_pow (by norm_num) place]
  push_cast
  field_simp

private theorem onGrid_eq (tie : Tie) (accepts : Decimal → Bool) (num : Nat) {den : Nat}
    (hden : 0 < den) (place : Int) :
    ∃ near far : Nat, |(near : ℚ) - num / den / 10 ^ place| ≤ 1 / 2 ∧
      (far : ℚ) ≤ num / den / 10 ^ place + 1 ∧
      onGrid tie accepts num den place =
        if accepts ⟨near, place⟩ then some ⟨near, place⟩
        else if accepts ⟨far, place⟩ then some ⟨far, place⟩ else none := by
  have hpos : 0 < den * 10 ^ place.toNat := Nat.mul_pos hden (Nat.pow_pos (by decide))
  rw [← scaled_div_scaled]
  simp only [onGrid]
  generalize den * 10 ^ place.toNat = b at hpos ⊢
  generalize num * 10 ^ (-place).toNat = a
  have hb : (0 : ℚ) < b := by exact_mod_cast hpos
  have hrest : ((a % b : Nat) : ℚ) / b < 1 := by
    rw [div_lt_one hb]
    exact_mod_cast Nat.mod_lt a hpos
  have hnonneg : (0 : ℚ) ≤ ((a % b : Nat) : ℚ) / b := by positivity
  have hsplit : (a : ℚ) / b = (a / b : Nat) + ((a % b : Nat) : ℚ) / b := by
    rw [← mul_left_inj' hb.ne', add_mul, div_mul_cancel₀ _ hb.ne', div_mul_cancel₀ _ hb.ne']
    exact_mod_cast (Nat.div_add_mod' a b).symm
  rw [hsplit]
  generalize a / b = below
  by_cases hupper : b < 2 * (a % b) ∨ b = 2 * (a % b) ∧ (tie = .larger ∨ below % 2 = 1)
  · have hne : a % b ≠ 0 := by omega
    have hhalf : 1 / 2 ≤ ((a % b : Nat) : ℚ) / b := by
      rw [div_le_div_iff₀ two_pos hb, one_mul, mul_comm]
      exact_mod_cast (show b ≤ 2 * (a % b) by omega)
    refine ⟨below + 1, below, ?_, by linarith, ?_⟩
    · rw [abs_le]
      push_cast
      constructor <;> linarith
    · simp [hupper, hne]
  · have hhalf : ((a % b : Nat) : ℚ) / b ≤ 1 / 2 := by
      rw [div_le_div_iff₀ hb two_pos, one_mul, mul_comm]
      exact_mod_cast (show 2 * (a % b) ≤ b by omega)
    refine ⟨below, if a % b = 0 then below else below + 1, ?_, ?_, ?_⟩
    · rw [abs_le]
      constructor <;> linarith
    · split
      · linarith
      · push_cast
        linarith
    · simp [hupper]

private theorem of_onGrid_eq_some (hden : 0 < den) {d : Decimal}
    (h : onGrid tie accepts num den place = some d) :
    accepts d = true ∧ d.exponent = place ∧
      (d.coefficient : ℚ) ≤ num / den / 10 ^ place + 1 := by
  obtain ⟨near, far, hnear, hfar, heq⟩ := onGrid_eq tie accepts num hden place
  rw [heq] at h
  split at h
  · next haccepts =>
    cases h
    exact ⟨haccepts, rfl, by linarith [(abs_le.mp hnear).2]⟩
  · split at h
    · next haccepts =>
      cases h
      exact ⟨haccepts, rfl, hfar⟩
    · cases h

private theorem onGrid_of_nearest (hden : 0 < den)
    (h : ∀ near : Nat, |(near : ℚ) - num / den / 10 ^ place| ≤ 1 / 2 →
      accepts ⟨near, place⟩ = true) :
    ∃ near : Nat, |(near : ℚ) - num / den / 10 ^ place| ≤ 1 / 2 ∧
      onGrid tie accepts num den place = some ⟨near, place⟩ := by
  obtain ⟨near, far, hnear, -, heq⟩ := onGrid_eq tie accepts num hden place
  exact ⟨near, hnear, by rw [heq, if_pos (h near hnear)]⟩

end Grids

/-! ## Words -/

private theorem toRat_exact (m : Nat) (e : Int) : (exact m e).toRat = m * 2 ^ e := by
  have hsplit : (2 : ℚ) ^ e = 2 ^ e.toNat * 5 ^ (-e).toNat * 10 ^ min e 0 := by
    rcases Int.le_total 0 e with h | h
    · obtain ⟨k, rfl⟩ := Int.eq_ofNat_of_zero_le h
      simp
    · obtain ⟨k, hk⟩ := Int.exists_eq_neg_ofNat h
      have hten : (10 : ℚ) ^ k = 2 ^ k * 5 ^ k := by rw [← mul_pow]; norm_num
      rw [hk, Int.min_eq_left (by omega), neg_neg, Int.toNat_natCast, zpow_neg, zpow_neg,
        zpow_natCast, zpow_natCast, hten]
      simp
  rw [toRat, exact, hsplit]
  push_cast
  ring

private theorem num_div_den_exact {f : Format} (w : Word f) :
    ((exact w.significand w.exponent).num : ℚ) / (exact w.significand w.exponent).den =
      f.number w.magnitude := by
  rw [num_div_den, toRat_exact, Word.significand_mul_zpow]

section Words

variable {f : Format} (tie : Tie) {w : Word f}

/-- What is found for a word on a grid. -/
def digitsAt (w : Word f) (place : Int) : Option Decimal :=
  onGrid tie (readsAs w) (exact w.significand w.exponent).num (exact w.significand w.exponent).den
    place

variable {tie} in
private theorem of_digitsAt_eq_some {place : Int} {d : Decimal}
    (h : digitsAt tie w place = some d) :
    readsAs w d = true ∧ d.exponent = place ∧
      (d.coefficient : ℚ) ≤ f.number w.magnitude / 10 ^ place + 1 := by
  rw [← num_div_den_exact]
  exact of_onGrid_eq_some (den_pos _) h

/-- What is found for a word that is not zero: the first digit stands at a place `first`, and the
number comes from the first grid below it that has one, or is the exact number. -/
theorem exists_shortest (hw : w.magnitude ≠ 0) :
    ∃ (first : Int) (d : Decimal), (10 : ℚ) ^ first ≤ f.number w.magnitude ∧
      f.number w.magnitude < 10 ^ (first + 1) ∧ shortest tie w = d.trim ∧
      ((∃ n : Nat, digitsAt tie w (first - n) = some d ∧
          ∀ m < n, digitsAt tie w (first - m) = none) ∨
        d = exact w.significand w.exponent ∧
          ∀ m : Nat, d.exponent ≤ first - m → digitsAt tie w (first - m) = none) := by
  have hnum : 0 < (exact w.significand w.exponent).num := by
    have hpos := Format.number_pos (f := f) (Nat.pos_of_ne_zero hw)
    rw [← num_div_den_exact] at hpos
    exact_mod_cast (div_pos_iff_of_pos_right (by exact_mod_cast den_pos _)).mp hpos
  have hspec := leadingPlace_spec hnum (exact w.significand w.exponent).den_pos
  rw [num_div_den_exact] at hspec
  simp only [shortest, if_neg hw, digitsAt]
  generalize exact w.significand w.exponent = d at *
  generalize leadingPlace d.num d.den = first at *
  cases hfind : (List.range ((first - d.exponent).toNat + 1)).findSome?
      fun n : Nat ↦ onGrid tie (readsAs w) d.num d.den (first - n) with
  | some found =>
    exact ⟨first, found, hspec.1, hspec.2, rfl, .inl (exists_of_findSome?_range hfind)⟩
  | none =>
    refine ⟨first, d, hspec.1, hspec.2, rfl, .inr ⟨rfl, fun m hm ↦ ?_⟩⟩
    rw [List.findSome?_eq_none_iff] at hfind
    exact hfind m (List.mem_range.mpr (by omega))

/-- What is found for a word reads back. -/
theorem readsAs_shortest (hf : 0 < f.fractionBits) (hw : w.isFinite) (hne : w.magnitude ≠ 0) :
    readsAs w (shortest tie w) = true := by
  obtain ⟨first, d, -, -, heq, h⟩ := exists_shortest tie hne
  rw [heq, readsAs_iff hf hw, toRat_trim]
  rcases h with ⟨n, hn, -⟩ | ⟨rfl, -⟩
  · rw [← readsAs_iff hf hw]
    exact (of_digitsAt_eq_some hn).1
  · rw [toRat_exact, Word.significand_mul_zpow]
    exact .of_near (by rw [sub_self, abs_zero]; positivity)

end Words

/-! ## Single precision -/

private theorem near_of_nine_digits {n : Nat} {q : ℚ} {first : Int}
    (hfirst : (10 : ℚ) ^ first ≤ binary32.number n)
    (h : |q - binary32.number n| ≤ 10 ^ (first - 8) / 2) :
    |q - binary32.number n| ≤ 2 ^ (binary32.lastPlace n - 3) := by
  have hcount : (binary32.count n : ℚ) ≤ 2 ^ 24 := by
    exact_mod_cast (binary32.count_lt n : binary32.count n < 2 ^ 24).le
  have hten : (10 : ℚ) ^ (first - 8) = 10 ^ first / 10 ^ 8 := by
    rw [zpow_sub₀ (by norm_num)]
    norm_num
  have htwo : (2 : ℚ) ^ (binary32.lastPlace n - 3) = 2 ^ binary32.lastPlace n / 8 := by
    rw [zpow_sub₀ (by norm_num)]
    norm_num
  have hpos : (0 : ℚ) < 2 ^ binary32.lastPlace n := by positivity
  calc |q - binary32.number n| ≤ 10 ^ first / 10 ^ 8 / 2 := by rw [← hten]; exact h
    _ ≤ binary32.count n * 2 ^ binary32.lastPlace n / 10 ^ 8 / 2 := by
        rw [← Format.number]
        gcongr
    _ ≤ 2 ^ 24 * 2 ^ binary32.lastPlace n / 10 ^ 8 / 2 := by gcongr
    _ ≤ 2 ^ (binary32.lastPlace n - 3) := by
        rw [htwo]
        linarith

private theorem exists_digitsAt_ninth (tie : Tie) {w : Single} (hw : w.isFinite) {first : Int}
    (hfirst : (10 : ℚ) ^ first ≤ binary32.number w.magnitude) :
    ∃ near : Nat, |(⟨near, first - 8⟩ : Decimal).toRat - binary32.number w.magnitude| ≤
        2 ^ (binary32.lastPlace w.magnitude - 3) ∧
      digitsAt tie w (first - 8) = some ⟨near, first - 8⟩ := by
  have hdist : ∀ near : Nat, |(near : ℚ) - binary32.number w.magnitude / 10 ^ (first - 8)| ≤ 1 / 2 →
      |(⟨near, first - 8⟩ : Decimal).toRat - binary32.number w.magnitude| ≤
        2 ^ (binary32.lastPlace w.magnitude - 3) := by
    intro near hnear
    have hpos : (0 : ℚ) < 10 ^ (first - 8) := by positivity
    apply near_of_nine_digits hfirst
    calc |(⟨near, first - 8⟩ : Decimal).toRat - binary32.number w.magnitude|
        = |(near : ℚ) - binary32.number w.magnitude / 10 ^ (first - 8)| * 10 ^ (first - 8) := by
          rw [toRat, ← abs_of_pos hpos, ← abs_mul, abs_of_pos hpos, sub_mul,
            div_mul_cancel₀ _ hpos.ne']
      _ ≤ 1 / 2 * 10 ^ (first - 8) := by gcongr
      _ = 10 ^ (first - 8) / 2 := by ring
  have haccepts : ∀ near : Nat, |(near : ℚ) - (exact w.significand w.exponent).num /
      (exact w.significand w.exponent).den / 10 ^ (first - 8)| ≤ 1 / 2 →
        readsAs w ⟨near, first - 8⟩ = true := by
    intro near hnear
    rw [num_div_den_exact] at hnear
    rw [readsAs_iff (by decide) hw]
    refine .of_near ((hdist near hnear).trans_lt ?_)
    exact zpow_lt_zpow_right₀ one_lt_two (by omega)
  obtain ⟨near, hnear, hfound⟩ := onGrid_of_nearest (den_pos _) haccepts
  rw [num_div_den_exact] at hnear
  exact ⟨near, hdist near hnear, hfound⟩

private theorem exists_multiple_eighth {d : Decimal} {first : Int} (h : first - 7 ≤ d.exponent) :
    ∃ s : Nat, d.toRat = s * 10 ^ (first - 7) := by
  obtain ⟨k, hk⟩ := Int.exists_add_of_le h
  refine ⟨d.coefficient * 10 ^ k, ?_⟩
  rw [toRat, hk, zpow_add₀ (by norm_num), zpow_natCast]
  push_cast
  ring

private theorem coefficient_le_of_place {d : Decimal} {q : ℚ} {first : Int}
    (hq : q < 10 ^ (first + 1))
    (hexponent : first - 8 ≤ d.exponent) (h : (d.coefficient : ℚ) ≤ q / 10 ^ d.exponent + 1) :
    d.coefficient ≤ 10 ^ 9 := by
  have hlt : q / 10 ^ d.exponent < 10 ^ (9 : Int) := by
    rw [div_lt_iff₀ (by positivity), ← zpow_add₀ (by norm_num)]
    exact hq.trans_le (zpow_le_zpow_right₀ (by norm_num) (by omega))
  have hcoefficient : (d.coefficient : ℚ) < (10 ^ 9 + 1 : Nat) := by
    push_cast
    linarith
  exact Nat.lt_succ_iff.mp (by exact_mod_cast hcoefficient)

/-- The digits found for a single-precision word that is not zero: they read back, are at most nine,
do not end in a zero, and are eight at most or lie within an eighth of the last place. -/
theorem shortest_single (tie : Tie) {w : Single} (hw : w.isFinite) (hne : w.magnitude ≠ 0) :
    binary32.RoundsTo w.magnitude (shortest tie w).toRat ∧ (shortest tie w).IsTrimmed ∧
      (shortest tie w).coefficient ≤ 10 ^ 9 ∧
      ((∃ (first : Int) (s : Nat), binary32.number w.magnitude < 10 ^ (first + 1) ∧
          (shortest tie w).toRat = s * 10 ^ (first - 7)) ∨
        |(shortest tie w).toRat - binary32.number w.magnitude| ≤
          2 ^ (binary32.lastPlace w.magnitude - 3)) := by
  have hreads := (readsAs_iff (by decide) hw _).mp (readsAs_shortest tie (by decide) hw hne)
  obtain ⟨first, d, hle, hlt, heq, h⟩ := exists_shortest tie hne
  obtain ⟨near, hnear, hninth⟩ := exists_digitsAt_ninth tie hw hle
  refine ⟨hreads, heq ▸ d.isTrimmed_trim, ?_⟩
  rw [heq, toRat_trim]
  rcases h with ⟨n, hn, hnone⟩ | ⟨rfl, hnone⟩
  · -- the ninth digit is the last one that is looked for
    have hn8 : n ≤ 8 := by
      by_contra hlt
      exact absurd ((hnone 8 (by omega)).symm.trans hninth) nofun
    obtain ⟨-, hexponent, hmost⟩ := of_digitsAt_eq_some hn
    rw [← hexponent] at hmost
    refine ⟨d.coefficient_trim_le.trans (coefficient_le_of_place hlt (by omega) hmost), ?_⟩
    rcases Nat.lt_or_eq_of_le hn8 with hless | rfl
    · obtain ⟨s, hs⟩ := exists_multiple_eighth (show first - 7 ≤ d.exponent by omega)
      exact .inl ⟨first, s, hlt, hs⟩
    · obtain rfl : d = ⟨near, first - 8⟩ := Option.some.inj (hn.symm.trans hninth)
      exact .inr hnear
  · have hexponent : first - 7 ≤ (exact w.significand w.exponent).exponent := by
      by_contra hlt
      exact absurd ((hnone 8 (by omega)).symm.trans hninth) nofun
    obtain ⟨s, hs⟩ := exists_multiple_eighth hexponent
    refine ⟨(coefficient_trim_le _).trans (coefficient_le_of_place hlt (by omega) ?_),
      .inl ⟨first, s, hlt, hs⟩⟩
    rw [← Word.significand_mul_zpow, ← toRat_exact, toRat, mul_div_cancel_right₀ _ (by positivity)]
    exact le_add_of_nonneg_right zero_le_one

end Decimal

end IndexedCodebook
