import IndexedCodebook.Proofs.Decimal.Residues
import IndexedCodebook.Proofs.Decimal.Shortest

/-!
# Short decimal numbers near the boundaries of single precision

A decimal number of eight digits that is not itself a boundary between two single-precision words
keeps away from the boundaries, with few exceptions. `nearBoundaries` lists those that come closer
than the error of some roundings in double precision, one power of two after the other. The shortest
digits of a word are at a boundary, or away from it, or listed (`separated`).
-/

namespace IndexedCodebook.Decimal

/-- A place that the eighth digit of a number from `2 ^ k` on does not go below. -/
def eighthPlace (k : Int) : Int := k * 30103 / 100000 - 7

/-- The exponent of which the boundaries between `2 ^ k` and `2 ^ (k + 1)` are odd multiples. -/
def boundaryPlace (k : Int) : Int := max (k - 24) (-150)

/-- The multiples of the eighth place, up to `2 ^ (k + 1)`, that are not at an odd multiple of
`2 ^ boundaryPlace k` but less than `2 ^ (-26)` of that power away from one, first below it and then
above. -/
def nearMultiples (k : Int) : List Nat :=
  let place := eighthPlace k
  let exponent := boundaryPlace k - 26
  let step := 10 ^ place.toNat * 2 ^ (-exponent).toNat
  let width := 10 ^ (-place).toNat * 2 ^ exponent.toNat
  let bound := 2 ^ (k + 1).toNat * 10 ^ (-place).toNat /
    (10 ^ place.toNat * 2 ^ (-(k + 1)).toNat) + 1
  smallResidues (width - 1) 100 step (2 ^ 27 * width) (2 ^ 26 * width + width) bound ++
    smallResidues (width - 1) 100 step (2 ^ 27 * width) (2 ^ 26 * width - 1) bound

/-- The decimal numbers of eight digits that are close to a boundary of single precision. -/
def nearBoundaries : List Decimal :=
  (List.range 278).flatMap fun i : Nat ↦
    (nearMultiples (i - 150)).map fun s ↦ ⟨s, eighthPlace (i - 150)⟩

/-- A power of ten and a power of two are in the proportion of two natural numbers. -/
theorem exists_scale (p e : Int) :
    ∃ scale : ℚ, 0 < scale ∧ (10 : ℚ) ^ p = scale * (10 ^ p.toNat * 2 ^ (-e).toNat : Nat) ∧
      (2 : ℚ) ^ e = scale * (10 ^ (-p).toNat * 2 ^ e.toNat : Nat) := by
  refine ⟨1 / (10 ^ (-p).toNat * 2 ^ (-e).toNat), by positivity, ?_, ?_⟩
  · rw [zpow_eq_pow_div_pow (by norm_num) p]
    push_cast
    field_simp
  · rw [zpow_eq_pow_div_pow two_ne_zero e]
    push_cast
    field_simp

private theorem eighthPlace_spec {k : Int} (hlow : -150 ≤ k) (hhigh : k ≤ 127) :
    (10 : ℚ) ^ (eighthPlace k + 7) ≤ 2 ^ k := by
  have hall : ∀ i < 278, 10 ^ (eighthPlace ((i : Nat) - 150) + 7).toNat *
      2 ^ (-((i : Nat) - 150 : Int)).toNat ≤ 10 ^ (-(eighthPlace ((i : Nat) - 150) + 7)).toNat *
        2 ^ ((i : Nat) - 150 : Int).toNat := by decide +kernel
  have hk := hall (k + 150).toNat (by omega)
  have hindex : (((k + 150).toNat : Nat) : Int) - 150 = k := by omega
  rw [hindex] at hk
  obtain ⟨scale, hpos, hten, htwo⟩ := exists_scale (eighthPlace k + 7) k
  rw [hten, htwo]
  exact mul_le_mul_of_nonneg_left (by exact_mod_cast hk) hpos.le

private theorem residue_of_near {t c width : Nat} (hne : t ≠ (2 * c + 1) * (2 ^ 26 * width))
    (hlow : (2 * c + 1) * (2 ^ 26 * width) ≤ t + width)
    (hhigh : t ≤ (2 * c + 1) * (2 ^ 26 * width) + width) :
    (t + (2 ^ 26 * width + width)) % (2 ^ 27 * width) ≤ width - 1 ∨
      (t + (2 ^ 26 * width - 1)) % (2 ^ 27 * width) ≤ width - 1 := by
  have hodd : (2 * c + 1) * (2 ^ 26 * width) + 2 ^ 26 * width = 2 ^ 27 * width * (c + 1) := by ring
  have hmod : ∀ r, (2 ^ 27 * width * (c + 1) + r) % (2 ^ 27 * width) ≤ r := by
    intro r
    rw [Nat.mul_add_mod]
    exact Nat.mod_le ..
  rcases Nat.lt_or_gt_of_ne hne with hbelow | habove
  · left
    obtain ⟨r, hr⟩ : ∃ r, t + width = (2 * c + 1) * (2 ^ 26 * width) + r :=
      Nat.exists_eq_add_of_le hlow
    have hsum : t + (2 ^ 26 * width + width) = 2 ^ 27 * width * (c + 1) + r := by omega
    rw [hsum]
    exact (hmod r).trans (by omega)
  · right
    obtain ⟨r, hr⟩ : ∃ r, t = (2 * c + 1) * (2 ^ 26 * width) + 1 + r :=
      Nat.exists_eq_add_of_lt habove |>.imp fun r h ↦ by omega
    have hsum : t + (2 ^ 26 * width - 1) = 2 ^ 27 * width * (c + 1) + r := by omega
    rw [hsum]
    exact (hmod r).trans (by omega)

private theorem lt_of_eighthPlace {k : Int} {s : Nat}
    (h : (s : ℚ) * 10 ^ eighthPlace k < 2 ^ (k + 1)) :
    s < 2 ^ (k + 1).toNat * 10 ^ (-eighthPlace k).toNat /
      (10 ^ (eighthPlace k).toNat * 2 ^ (-(k + 1)).toNat) + 1 := by
  obtain ⟨scale, hpos, hten, htwo⟩ := exists_scale (eighthPlace k) (k + 1)
  rw [hten, htwo, mul_left_comm, mul_lt_mul_iff_right₀ hpos] at h
  rw [Nat.lt_succ_iff, Nat.le_div_iff_mul_le (by positivity), Nat.mul_comm (2 ^ _)]
  exact_mod_cast h.le

private theorem mem_nearMultiples {k : Int} {c s : Nat}
    (hbound : (s : ℚ) * 10 ^ eighthPlace k < 2 ^ (k + 1))
    (hne : (s : ℚ) * 10 ^ eighthPlace k ≠ (2 * c + 1 : Nat) * 2 ^ boundaryPlace k)
    (h : |(s : ℚ) * 10 ^ eighthPlace k - (2 * c + 1 : Nat) * 2 ^ boundaryPlace k| ≤
      2 ^ (boundaryPlace k - 26)) :
    s ∈ nearMultiples k := by
  have hs := lt_of_eighthPlace hbound
  have hplace : (2 : ℚ) ^ boundaryPlace k = 2 ^ 26 * 2 ^ (boundaryPlace k - 26) := by
    rw [← zpow_natCast, ← zpow_add₀ two_ne_zero]
    congr 1
    push_cast
    ring
  obtain ⟨scale, hpos, hten, htwo⟩ := exists_scale (eighthPlace k) (boundaryPlace k - 26)
  have hwidth : 0 < 10 ^ (-eighthPlace k).toNat * 2 ^ (boundaryPlace k - 26).toNat := by positivity
  rw [hplace, hten, htwo] at hne h
  rw [nearMultiples]
  generalize 10 ^ (-eighthPlace k).toNat * 2 ^ (boundaryPlace k - 26).toNat = width at *
  generalize 10 ^ (eighthPlace k).toNat * 2 ^ (-(boundaryPlace k - 26)).toNat = step at *
  -- without the scale all of this is a matter of natural numbers
  have hscaled : (s : ℚ) * (scale * step) - (2 * c + 1 : Nat) * (2 ^ 26 * (scale * width)) =
      scale * (step * s - (2 * c + 1 : Nat) * (2 ^ 26 * width)) := by ring
  rw [← sub_ne_zero, hscaled, mul_ne_zero_iff, sub_ne_zero] at hne
  rw [hscaled, abs_mul, abs_of_pos hpos, mul_le_mul_iff_right₀ hpos, abs_le,
    neg_le_sub_iff_le_add, sub_le_iff_le_add'] at h
  have hneNat : step * s ≠ (2 * c + 1) * (2 ^ 26 * width) := by exact_mod_cast hne.2
  have hlowNat : (2 * c + 1) * (2 ^ 26 * width) ≤ step * s + width := by exact_mod_cast h.1
  have hhighNat : step * s ≤ (2 * c + 1) * (2 ^ 26 * width) + width := by exact_mod_cast h.2
  have hm : 0 < 2 ^ 27 * width := by omega
  rw [List.mem_append]
  rcases residue_of_near hneNat hlowNat hhighNat with hresidue | hresidue
  · exact .inl (mem_smallResidues 100 hm hs hresidue)
  · exact .inr (mem_smallResidues 100 hm hs hresidue)

private theorem log2_odd_spec (c : Nat) :
    2 ^ (2 * c + 1).log2 ≤ 2 * c + 1 ∧ 2 * c + 1 + 1 ≤ 2 ^ ((2 * c + 1).log2 + 1) ∧
      (0 < c → 2 ^ (2 * c + 1).log2 ≤ 2 * c) := by
  have hle : 2 ^ (2 * c + 1).log2 ≤ 2 * c + 1 := Nat.log2_self_le (by omega)
  have hlt : 2 * c + 1 < 2 ^ ((2 * c + 1).log2 + 1) := Nat.lt_log2_self
  generalize (2 * c + 1).log2 = log at *
  refine ⟨hle, ?_, fun hpos ↦ ?_⟩
  · rw [Nat.pow_succ] at hlt ⊢
    omega
  · -- the power of two is even
    obtain ⟨l, rfl⟩ : ∃ l, log = l + 1 := by
      refine Nat.exists_eq_add_one_of_ne_zero ?_
      rintro rfl
      omega
    rw [Nat.pow_succ] at hle ⊢
    omega

/-- A boundary of single precision is an odd multiple of its place, between two powers of two. -/
theorem exists_boundaryPlace {n : Nat} (hn : n < binary32.infinity) :
    ∃ k : Int, -150 ≤ k ∧ k ≤ 127 ∧ boundaryPlace k = binary32.lastPlace n - 1 ∧
      (2 : ℚ) ^ k ≤ binary32.boundary n ∧
      binary32.boundary n + 2 ^ boundaryPlace k ≤ 2 ^ (k + 1) ∧
      (0 < n → (2 : ℚ) ^ k ≤ binary32.number n) := by
  obtain ⟨hsplit, hcount⟩ := binary32.count_spec n
  have hbits : binary32.fractionBits = 23 := rfl
  have hmin : binary32.minExponent = -149 := by decide
  have hinfinity : binary32.infinity = 255 * 2 ^ 23 := rfl
  have hbinade : binary32.binade n ≤ 253 := by
    rw [Format.binade, hbits]
    omega
  rw [hbits] at hcount hsplit
  have hlog : (2 * binary32.count n + 1).log2 ≤ 24 ∧
      (binary32.binade n ≠ 0 → 24 ≤ (2 * binary32.count n + 1).log2) := by
    constructor
    · rw [← Nat.lt_succ_iff, Nat.log2_lt (by omega)]
      omega
    · intro hne
      rw [Nat.le_log2 (by omega)]
      omega
  have hplace : binary32.lastPlace n = -149 + binary32.binade n := by rw [Format.lastPlace, hmin]
  obtain ⟨hle, hlt, heven⟩ := log2_odd_spec (binary32.count n)
  rw [Format.boundary]
  refine ⟨(2 * binary32.count n + 1).log2 + (binary32.lastPlace n - 1), ?_⟩
  generalize (2 * binary32.count n + 1).log2 = log at *
  have hboundary : boundaryPlace (log + (binary32.lastPlace n - 1)) = binary32.lastPlace n - 1 := by
    rw [boundaryPlace]
    omega
  refine ⟨by omega, by omega, hboundary, ?_, ?_, fun hpos ↦ ?_⟩
  · rw [zpow_add₀ two_ne_zero, zpow_natCast]
    gcongr
    exact_mod_cast hle
  · rw [hboundary, add_right_comm, zpow_add₀ two_ne_zero, ← Nat.cast_succ, zpow_natCast,
      ← add_one_mul]
    gcongr
    exact_mod_cast hlt
  · have hcast : (2 : ℚ) ^ log ≤ 2 * binary32.count n := by exact_mod_cast heven (by omega)
    calc (2 : ℚ) ^ ((log : Int) + (binary32.lastPlace n - 1))
        = 2 ^ log * 2 ^ (binary32.lastPlace n - 1) := by
          rw [zpow_add₀ two_ne_zero, zpow_natCast]
      _ ≤ 2 * binary32.count n * 2 ^ (binary32.lastPlace n - 1) := by gcongr
      _ = binary32.number n := by
          rw [Format.number, zpow_sub_one₀ two_ne_zero]
          ring

private theorem away_of_near {M n : Nat} {q : ℚ}
    (h : |q - binary32.number M| ≤ 2 ^ (binary32.lastPlace M - 3)) (hn : n = M ∨ n + 1 = M) :
    2 ^ (binary32.lastPlace n - 27) < |q - binary32.boundary n| := by
  have hless : (2 : ℚ) ^ (binary32.lastPlace n - 27) < 2 ^ (binary32.lastPlace n - 2) :=
    zpow_lt_zpow_right₀ one_lt_two (by omega)
  have hhalf : (2 : ℚ) ^ (binary32.lastPlace n - 1) = 2 * 2 ^ (binary32.lastPlace n - 2) := by
    rw [← zpow_one_add₀ two_ne_zero]
    congr 1
    ring
  have hnear : |q - binary32.number M| ≤ 2 ^ (binary32.lastPlace n - 2) := by
    refine h.trans (zpow_le_zpow_right₀ one_le_two ?_)
    rcases hn with rfl | rfl
    · omega
    · have := binary32.lastPlace_succ_le n
      omega
  obtain ⟨hlow, hhigh⟩ := abs_le.mp hnear
  rw [lt_abs]
  rcases hn with rfl | rfl
  · right
    rw [binary32.boundary_eq]
    linarith
  · left
    rw [binary32.number_succ_eq] at hlow
    linarith

/-- A number of eight digits that is close to a boundary, but not at it, is listed. -/
theorem listed_of_close {M n s : Nat} {q : ℚ} {first : Int} (hpos : 0 < M)
    (hfinite : M < binary32.infinity) (hn : n = M ∨ n + 1 = M)
    (hfirst : binary32.number M < 10 ^ (first + 1)) (hq : q = s * 10 ^ (first - 7))
    (hne : q ≠ binary32.boundary n)
    (hclose : |q - binary32.boundary n| ≤ 2 ^ (binary32.lastPlace n - 27)) :
    ∃ d ∈ nearBoundaries, d.toRat = q := by
  obtain ⟨k, hlow, hhigh, hplace, hle, hlt, hlowest⟩ := exists_boundaryPlace (n := n) (by omega)
  have hword : (2 : ℚ) ^ k ≤ binary32.number M := by
    rcases hn with rfl | rfl
    · exact hlowest hpos
    · exact hle.trans (binary32.boundary_lt_number n).le
  have hdigits : eighthPlace k + 7 < first + 1 := by
    rw [← zpow_lt_zpow_iff_right₀ (by norm_num : (1 : ℚ) < 10)]
    exact ((eighthPlace_spec hlow hhigh).trans hword).trans_lt hfirst
  -- so it is a multiple of the eighth place
  obtain ⟨j, hj⟩ := Int.exists_add_of_le (show eighthPlace k ≤ first - 7 by omega)
  have hmultiple : q = (s * 10 ^ j : Nat) * 10 ^ eighthPlace k := by
    rw [hq, hj, zpow_add₀ (by norm_num), zpow_natCast]
    push_cast
    ring
  have hexponent : binary32.lastPlace n - 27 = boundaryPlace k - 26 := by omega
  rw [hexponent] at hclose
  rw [Format.boundary, ← hplace] at hne hclose hlt
  have hbound : q < 2 ^ (k + 1) := by
    have hclosest : (2 : ℚ) ^ (boundaryPlace k - 26) < 2 ^ boundaryPlace k :=
      zpow_lt_zpow_right₀ one_lt_two (by omega)
    linarith [(abs_le.mp hclose).2]
  have hindex : (((k + 150).toNat : Nat) : Int) - 150 = k := by omega
  rw [hmultiple] at hne hclose hbound
  refine ⟨⟨s * 10 ^ j, eighthPlace k⟩, ?_, hmultiple.symm⟩
  rw [nearBoundaries, List.mem_flatMap]
  refine ⟨(k + 150).toNat, List.mem_range.mpr (by omega), ?_⟩
  rw [hindex]
  exact List.mem_map_of_mem (mem_nearMultiples hbound hne hclose)

/-- The shortest digits of a word are at a boundary next to it, or away from it, or listed. -/
theorem separated (tie : Tie) {w : Single} (hw : w.isFinite) (hne : w.magnitude ≠ 0) {n : Nat}
    (hn : n = w.magnitude ∨ n + 1 = w.magnitude) :
    (shortest tie w).toRat = binary32.boundary n ∨
      2 ^ (binary32.lastPlace n - 27) < |(shortest tie w).toRat - binary32.boundary n| ∨
      ∃ d ∈ nearBoundaries, d.toRat = (shortest tie w).toRat := by
  have hfinite : w.magnitude < binary32.infinity := of_decide_eq_true hw
  obtain ⟨-, -, -, ⟨first, s, hfirst, hq⟩ | hnear⟩ := shortest_single tie hw hne
  · by_cases hat : (shortest tie w).toRat = binary32.boundary n
    · exact .inl hat
    by_cases hclose : |(shortest tie w).toRat - binary32.boundary n| ≤
        2 ^ (binary32.lastPlace n - 27)
    · have hpos := Nat.pos_of_ne_zero hne
      exact .inr (.inr (listed_of_close hpos hfinite hn hfirst hq hat hclose))
    · exact .inr (.inl (lt_of_not_ge hclose))
  · exact .inr (.inl (away_of_near hnear hn))

end IndexedCodebook.Decimal
