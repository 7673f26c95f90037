import Mathlib.Order.Monotone.Basic
import IndexedCodebook.Proofs.Binary.Nearest

/-!
# Boundaries between the words of a format

Halfway between a magnitude and the next one lies a boundary (`Format.boundary`). A number is
rounded to a magnitude if it is not beyond the boundaries around it, and lies on one of them only if
the magnitude is even (`Format.RoundsTo`). There is no other such magnitude (`RoundsTo.unique`), and
`Format.round` finds it for every fraction (`magnitude_round_eq_iff`). The result is off by at most
half a last place (`round_near`).
-/

namespace IndexedCodebook

/-- A power as a quotient of natural powers. -/
theorem zpow_eq_pow_div_pow {b : ℚ} (hb : b ≠ 0) (e : Int) :
    b ^ e = b ^ e.toNat / b ^ (-e).toNat := by
  rw [← zpow_natCast, ← zpow_natCast, ← zpow_sub₀ hb]
  congr 1
  omega

private theorem leadingExponent_spec {num den : Nat} (hnum : 0 < num) (hden : 0 < den) :
    (2 : ℚ) ^ leadingExponent num den ≤ num / den ∧
      (num : ℚ) / den < 2 ^ (leadingExponent num den + 1) := by
  have hnumle : (2 : ℚ) ^ num.log2 ≤ num := by exact_mod_cast Nat.log2_self_le hnum.ne'
  have hnumlt : (num : ℚ) < 2 ^ (num.log2 + 1) := by
    exact_mod_cast (Nat.lt_log2_self : num < 2 ^ (num.log2 + 1))
  have hdenle : (2 : ℚ) ^ den.log2 ≤ den := by exact_mod_cast Nat.log2_self_le hden.ne'
  have hdenlt : (den : ℚ) < 2 ^ (den.log2 + 1) := by
    exact_mod_cast (Nat.lt_log2_self : den < 2 ^ (den.log2 + 1))
  have hpos : (0 : ℚ) < den := by exact_mod_cast hden
  -- the leading bits of both terms leave two exponents
  have hlower : (2 : ℚ) ^ ((num.log2 : Int) - den.log2 - 1) ≤ num / den := by
    rw [le_div_iff₀ hpos]
    calc (2 : ℚ) ^ ((num.log2 : Int) - den.log2 - 1) * den
        ≤ 2 ^ ((num.log2 : Int) - den.log2 - 1) * 2 ^ (den.log2 + 1) := by gcongr
      _ = 2 ^ num.log2 := by
        rw [← zpow_natCast, ← zpow_natCast, ← zpow_add₀ two_ne_zero]
        congr 1
        push_cast
        ring
      _ ≤ num := hnumle
  have hupper : (num : ℚ) / den < 2 ^ ((num.log2 : Int) - den.log2 + 1) := by
    rw [div_lt_iff₀ hpos]
    calc (num : ℚ) < 2 ^ (num.log2 + 1) := hnumlt
      _ = 2 ^ ((num.log2 : Int) - den.log2 + 1) * 2 ^ den.log2 := by
        rw [← zpow_natCast, ← zpow_natCast, ← zpow_add₀ two_ne_zero]
        congr 1
        push_cast
        ring
      _ ≤ 2 ^ ((num.log2 : Int) - den.log2 + 1) * den := by gcongr
  have hguess : den * 2 ^ ((num.log2 : Int) - den.log2).toNat ≤
      num * 2 ^ (-((num.log2 : Int) - den.log2)).toNat ↔
        (2 : ℚ) ^ ((num.log2 : Int) - den.log2) ≤ num / den := by
    generalize (num.log2 : Int) - den.log2 = guess
    rw [zpow_eq_pow_div_pow two_ne_zero guess, div_le_div_iff₀ (by positivity) hpos,
      mul_comm (2 ^ guess.toNat : ℚ)]
    exact_mod_cast Iff.rfl
  simp only [leadingExponent, hguess]
  split
  · next h => exact ⟨h, hupper⟩
  · next h => exact ⟨hlower, by simpa using h⟩

namespace Format

variable (f : Format)

/-- How many binades a magnitude lies above the lowest one. -/
def binade (n : Nat) : Nat := n / 2 ^ f.fractionBits - 1

/-- The exponent of the last place of a magnitude. -/
def lastPlace (n : Nat) : Int := f.minExponent + f.binade n

/-- The number of a magnitude, in its last place. -/
def count (n : Nat) : Nat := n - f.binade n * 2 ^ f.fractionBits

/-- The number that a magnitude stands for; the infinity stands for the power of two on top of the
finite ones. -/
def number (n : Nat) : ℚ := f.count n * 2 ^ f.lastPlace n

/-- The number halfway between a magnitude and the next one. -/
def boundary (n : Nat) : ℚ := (2 * f.count n + 1 : Nat) * 2 ^ (f.lastPlace n - 1)

/-- A number is rounded to a magnitude: no boundary lies between them, and none but one of an even
magnitude at the number. -/
structure RoundsTo (n : Nat) (q : ℚ) : Prop where
  boundary_le : ∀ m < n, f.boundary m ≤ q
  le_boundary : ∀ m, n ≤ m → q ≤ f.boundary m
  even : ∀ m, f.boundary m = q → n % 2 = 0

variable {f} {n m : Nat} {q : ℚ}

private theorem count_and_lastPlace {s j : Nat}
    (hs : j = 0 ∧ s < 2 ^ f.fractionBits ∨
      2 ^ f.fractionBits ≤ s ∧ s < 2 ^ (f.fractionBits + 1)) :
    f.count (s + j * 2 ^ f.fractionBits) = s ∧
      f.lastPlace (s + j * 2 ^ f.fractionBits) = f.minExponent + j := by
  have hpos := Nat.two_pow_pos f.fractionBits
  have hbinade : f.binade (s + j * 2 ^ f.fractionBits) = j := by
    rw [binade, Nat.add_mul_div_right _ _ hpos]
    rcases hs with ⟨rfl, hs⟩ | ⟨hle, hlt⟩
    · rw [Nat.div_eq_of_lt hs]
    · have hone : s / 2 ^ f.fractionBits = 1 := by
        rw [Nat.div_eq_iff hpos]
        rw [Nat.pow_succ] at hlt
        omega
      rw [hone]
      omega
  rw [count, lastPlace, hbinade]
  exact ⟨Nat.add_sub_cancel .., rfl⟩

/-- Every magnitude counts places of a binade. -/
theorem count_spec (f : Format) (n : Nat) :
    n = f.count n + f.binade n * 2 ^ f.fractionBits ∧
      (f.binade n = 0 ∧ f.count n < 2 ^ f.fractionBits ∨
        2 ^ f.fractionBits ≤ f.count n ∧ f.count n < 2 ^ (f.fractionBits + 1)) := by
  have hpos := Nat.two_pow_pos f.fractionBits
  have hsplit := Nat.div_add_mod' n (2 ^ f.fractionBits)
  have hmod := Nat.mod_lt n hpos
  rw [count, binade, Nat.pow_succ]
  rcases Nat.eq_zero_or_pos (n / 2 ^ f.fractionBits) with hzero | hbinade
  · rw [hzero] at hsplit ⊢
    omega
  · have hbelow : (n / 2 ^ f.fractionBits - 1) * 2 ^ f.fractionBits + 2 ^ f.fractionBits =
        n / 2 ^ f.fractionBits * 2 ^ f.fractionBits := by
      rw [← Nat.succ_mul]
      congr 1
      omega
    omega

/-- A magnitude counts less than two binades of places. -/
theorem count_lt (f : Format) (n : Nat) : f.count n < 2 ^ (f.fractionBits + 1) := by
  have hcount := (f.count_spec n).2
  rw [Nat.pow_succ] at *
  omega

/-- The next number is one last place away. -/
theorem number_succ (f : Format) (n : Nat) :
    f.number (n + 1) = f.number n + 2 ^ f.lastPlace n := by
  obtain ⟨hn, hcount⟩ := f.count_spec n
  have hpow : 2 ^ (f.fractionBits + 1) = 2 * 2 ^ f.fractionBits := Nat.pow_succ'
  have hpos := Nat.two_pow_pos f.fractionBits
  have hadd : f.number n + 2 ^ f.lastPlace n = (f.count n + 1 : Nat) * 2 ^ f.lastPlace n := by
    rw [number]
    push_cast
    ring
  have hnext : n + 1 = f.count n + 1 + f.binade n * 2 ^ f.fractionBits := by omega
  rw [hadd, number]
  by_cases htop : f.count n + 1 = 2 ^ (f.fractionBits + 1)
  · -- the next number is the lowest one of the next binade
    have hcarry : n + 1 = 2 ^ f.fractionBits + (f.binade n + 1) * 2 ^ f.fractionBits := by
      rw [Nat.succ_mul]
      omega
    obtain ⟨hcount', hplace'⟩ := count_and_lastPlace (f := f) (s := 2 ^ f.fractionBits)
      (j := f.binade n + 1) (.inr ⟨Nat.le_refl _, by omega⟩)
    rw [hcarry, hcount', hplace', htop, lastPlace]
    push_cast
    rw [pow_succ, mul_assoc, ← zpow_one_add₀ two_ne_zero]
    congr 2
    ring
  · obtain ⟨hcount', hplace'⟩ := count_and_lastPlace (f := f) (s := f.count n + 1)
      (j := f.binade n) (by omega)
    rw [← hnext] at hcount' hplace'
    rw [hcount', hplace', lastPlace]

/-- Only zero stands for zero. -/
theorem number_pos (hn : 0 < n) : 0 < f.number n := by
  obtain ⟨k, rfl⟩ := Nat.exists_eq_add_one_of_ne_zero hn.ne'
  rw [number_succ, number]
  positivity

/-- A boundary is half a last place above the number of its magnitude. -/
theorem boundary_eq (f : Format) (n : Nat) :
    f.boundary n = f.number n + 2 ^ (f.lastPlace n - 1) := by
  rw [boundary, number, zpow_sub_one₀ two_ne_zero]
  push_cast
  ring

/-- It is as far below the next number. -/
theorem number_succ_eq (f : Format) (n : Nat) :
    f.number (n + 1) = f.boundary n + 2 ^ (f.lastPlace n - 1) := by
  rw [number_succ, boundary_eq, zpow_sub_one₀ two_ne_zero]
  ring

/-- The number of a magnitude, in places of the binade that it belongs to or ends. -/
theorem number_eq {s j : Nat} (hj : j = 0 ∨ 2 ^ f.fractionBits ≤ s)
    (hs : s ≤ 2 ^ (f.fractionBits + 1)) :
    f.number (s + j * 2 ^ f.fractionBits) = s * 2 ^ (f.minExponent + j) := by
  have hpow : 2 ^ (f.fractionBits + 1) = 2 * 2 ^ f.fractionBits := Nat.pow_succ'
  have hpos := Nat.two_pow_pos f.fractionBits
  have hbelow : ∀ {t : Nat}, j = 0 ∨ 2 ^ f.fractionBits ≤ t → t < 2 ^ (f.fractionBits + 1) →
      f.number (t + j * 2 ^ f.fractionBits) = t * 2 ^ (f.minExponent + j) ∧
        f.lastPlace (t + j * 2 ^ f.fractionBits) = f.minExponent + j := by
    intro t ht hlt
    obtain ⟨hcount, hplace⟩ := count_and_lastPlace (f := f) (s := t) (j := j) (by omega)
    rw [number, hcount, hplace]
    exact ⟨rfl, rfl⟩
  rcases Nat.lt_or_eq_of_le hs with hlt | rfl
  · exact (hbelow hj hlt).1
  · -- the number on top of a binade is next to its last one
    obtain ⟨t, ht⟩ := Nat.exists_eq_add_one_of_ne_zero
      (Nat.pos_iff_ne_zero.mp (Nat.two_pow_pos (f.fractionBits + 1)))
    obtain ⟨hnumber, hplace⟩ := hbelow (t := t) (by omega) (by omega)
    rw [ht, Nat.add_right_comm, number_succ, hnumber, hplace]
    push_cast
    ring

private theorem number_lt_boundary (f : Format) (n : Nat) : f.number n < f.boundary n := by
  rw [boundary_eq]
  have : (0 : ℚ) < 2 ^ (f.lastPlace n - 1) := by positivity
  linarith

/-- The next number lies above it. -/
theorem boundary_lt_number (f : Format) (n : Nat) : f.boundary n < f.number (n + 1) := by
  rw [number_succ_eq]
  have : (0 : ℚ) < 2 ^ (f.lastPlace n - 1) := by positivity
  linarith

/-- Boundaries are in the order of their magnitudes. -/
theorem boundary_strictMono (f : Format) : StrictMono f.boundary :=
  strictMono_nat_of_lt_succ fun n ↦ (f.boundary_lt_number n).trans (f.number_lt_boundary (n + 1))

/-- From one magnitude to the next the last place rises by one at most. -/
theorem lastPlace_succ_le (f : Format) (n : Nat) : f.lastPlace (n + 1) ≤ f.lastPlace n + 1 := by
  have hdiv : (n + 1) / 2 ^ f.fractionBits ≤ n / 2 ^ f.fractionBits + 1 := by
    rw [← Nat.add_div_right n (Nat.two_pow_pos _)]
    exact Nat.div_le_div_right (by have := Nat.two_pow_pos f.fractionBits; omega)
  rw [lastPlace, lastPlace, binade, binade]
  omega

private theorem boundary_pos (f : Format) (n : Nat) : 0 < f.boundary n := by
  rw [boundary]
  positivity

namespace RoundsTo

/-- It is enough to look at the boundaries next to a magnitude. -/
theorem of_adjacent (hbelow : ∀ m, n = m + 1 → f.boundary m ≤ q) (habove : q ≤ f.boundary n)
    (heven : n % 2 = 1 → q ≠ f.boundary n ∧ ∀ m, n = m + 1 → f.boundary m ≠ q) :
    f.RoundsTo n q := by
  have hlower : ∀ m < n, ∃ k, n = k + 1 ∧ f.boundary m ≤ f.boundary k := by
    intro m hm
    obtain ⟨k, rfl⟩ := Nat.exists_eq_add_one_of_ne_zero (Nat.ne_zero_of_lt hm)
    exact ⟨k, rfl, f.boundary_strictMono.monotone (Nat.le_of_lt_succ hm)⟩
  refine ⟨fun m hm ↦ ?_, fun m hm ↦ habove.trans (f.boundary_strictMono.monotone hm),
    fun m hm ↦ ?_⟩
  · obtain ⟨k, hk, hle⟩ := hlower m hm
    exact hle.trans (hbelow k hk)
  · by_contra hodd
    obtain ⟨hne, hne'⟩ := heven (by omega)
    rcases Nat.lt_or_ge m n with hlt | hge
    · obtain ⟨k, hk, hle⟩ := hlower m hlt
      exact hne' k hk (le_antisymm (hbelow k hk) (hm ▸ hle))
    · exact hne (le_antisymm habove (hm ▸ f.boundary_strictMono.monotone hge))

/-- A number is rounded to one magnitude at most. -/
theorem unique (h : f.RoundsTo n q) (h' : f.RoundsTo m q) : n = m := by
  have hle : ∀ {a b : Nat}, f.RoundsTo a q → f.RoundsTo b q → a ≤ b := by
    intro a b ha hb
    by_contra hlt
    rw [Nat.not_le] at hlt
    -- both lie at the boundary of the lower one, and are even
    have hat : f.boundary b = q := le_antisymm (ha.boundary_le b hlt) (hb.le_boundary b le_rfl)
    have heven := ha.even b hat
    have heven' := hb.even b hat
    have hnext := ha.boundary_le (b + 1) (by omega)
    have hstep : f.boundary b < f.boundary (b + 1) := f.boundary_strictMono (Nat.lt_succ_self b)
    linarith
  exact Nat.le_antisymm (hle h h') (hle h' h)

private theorem le_of_le_number (h : f.RoundsTo n q) (hq : q ≤ f.number m) : n ≤ m := by
  by_contra hlt
  have hle := h.boundary_le m (Nat.lt_of_not_le hlt)
  have hbelow := f.number_lt_boundary m
  linarith

/-- A number closer to that of a magnitude than a quarter of its last place is rounded to it. -/
theorem of_near (h : |q - f.number n| < 2 ^ (f.lastPlace n - 2)) : f.RoundsTo n q := by
  have hhalf : (2 : ℚ) ^ (f.lastPlace n - 2) ≤ 2 ^ (f.lastPlace n - 1) :=
    zpow_le_zpow_right₀ one_le_two (by omega)
  have hbelow : ∀ m, n = m + 1 → f.boundary m < q := by
    rintro m rfl
    have hquarter : (2 : ℚ) ^ (f.lastPlace (m + 1) - 2) ≤ 2 ^ (f.lastPlace m - 1) :=
      zpow_le_zpow_right₀ one_le_two (by have := f.lastPlace_succ_le m; omega)
    have hnext := f.number_succ_eq m
    linarith [(abs_lt.mp h).1]
  have habove : q < f.boundary n := by
    rw [boundary_eq]
    linarith [(abs_lt.mp h).2]
  exact .of_adjacent (fun m hm ↦ (hbelow m hm).le) habove.le
    fun _ ↦ ⟨habove.ne, fun m hm ↦ (hbelow m hm).ne⟩

/-- Zero is rounded to zero. -/
theorem zero (f : Format) : f.RoundsTo 0 0 := by
  refine of_adjacent (fun m hm ↦ ?_) (f.boundary_pos 0).le (fun hodd ↦ ?_)
  · omega
  · omega

end RoundsTo

private theorem boundary_of_count {s j : Nat} (hj : j = 0 ∨ 2 ^ f.fractionBits ≤ s)
    (hs : s < 2 ^ (f.fractionBits + 1)) :
    f.boundary (s + j * 2 ^ f.fractionBits) = (s + 1 / 2) * 2 ^ (f.minExponent + j) := by
  have hsplit : j = 0 ∧ s < 2 ^ f.fractionBits ∨
      2 ^ f.fractionBits ≤ s ∧ s < 2 ^ (f.fractionBits + 1) := by omega
  obtain ⟨hcount, hplace⟩ := count_and_lastPlace hsplit
  rw [boundary, hcount, hplace, zpow_sub_one₀ two_ne_zero]
  push_cast
  ring

private theorem boundary_below_count {s j m : Nat} (hm : s + j * 2 ^ f.fractionBits = m + 1)
    (hj : j = 0 ∨ 2 ^ f.fractionBits < s) (hs : s ≤ 2 ^ (f.fractionBits + 1)) :
    f.boundary m = (s - 1 / 2) * 2 ^ (f.minExponent + j) := by
  have hpositive : s ≠ 0 := by
    rintro rfl
    obtain rfl : j = 0 := by omega
    rw [Nat.zero_mul] at hm
    omega
  obtain ⟨t, rfl⟩ := Nat.exists_eq_add_one_of_ne_zero hpositive
  obtain rfl : m = t + j * 2 ^ f.fractionBits := by omega
  rw [boundary_of_count (by omega) (by omega)]
  push_cast
  ring

private theorem roundsTo_of_nearestEven (hf : 0 < f.fractionBits) {s j : Nat}
    (hnear : NearestEven s (q / 2 ^ (f.minExponent + j)))
    (hj : j = 0 ∨ 2 ^ f.fractionBits ≤ s ∧ 2 ^ f.fractionBits * 2 ^ (f.minExponent + j) ≤ q)
    (hs : s ≤ 2 ^ (f.fractionBits + 1))
    (hq : q < 2 ^ (f.fractionBits + 1) * 2 ^ (f.minExponent + j)) :
    f.RoundsTo (s + j * 2 ^ f.fractionBits) q := by
  have hnumber := number_eq (hj.imp_right And.left) hs
  have hparity : (s + j * 2 ^ f.fractionBits) % 2 = s % 2 := by
    obtain ⟨k, hk⟩ := Nat.exists_eq_add_one_of_ne_zero hf.ne'
    rw [hk, Nat.pow_succ, ← Nat.mul_assoc, Nat.add_mul_mod_self_right]
  -- in places, the number is at most half a place away, and less if the count is odd
  have hpos : (0 : ℚ) < 2 ^ (f.minExponent + j) := by positivity
  obtain ⟨x, rfl⟩ : ∃ x, q = x * 2 ^ (f.minExponent + j) :=
    ⟨q / 2 ^ (f.minExponent + j), (div_mul_cancel₀ _ hpos.ne').symm⟩
  rw [mul_div_cancel_right₀ _ hpos.ne'] at hnear
  obtain ⟨hlow, hhigh⟩ := abs_le.mp hnear.near
  -- so it lies at or below the boundary above it
  have habove : x * 2 ^ (f.minExponent + j) < f.boundary (s + j * 2 ^ f.fractionBits) ∨
      f.boundary (s + j * 2 ^ f.fractionBits) = (s + 1 / 2) * 2 ^ (f.minExponent + j) := by
    rcases Nat.lt_or_eq_of_le hs with hlt | rfl
    · exact .inr (boundary_of_count (hj.imp_right And.left) hlt)
    · left
      have hlt := f.number_lt_boundary (2 ^ (f.fractionBits + 1) + j * 2 ^ f.fractionBits)
      rw [hnumber, Nat.cast_pow, Nat.cast_ofNat] at hlt
      exact hq.trans hlt
  -- and at or above the one below it
  have hbelow : ∀ m, s + j * 2 ^ f.fractionBits = m + 1 →
      f.boundary m < x * 2 ^ (f.minExponent + j) ∨
        f.boundary m = (s - 1 / 2) * 2 ^ (f.minExponent + j) := by
    intro m hm
    by_cases hlowest : j ≠ 0 ∧ s = 2 ^ f.fractionBits
    · left
      obtain ⟨hne, rfl⟩ := hlowest
      have hlt := f.boundary_lt_number m
      rw [← hm, hnumber, Nat.cast_pow, Nat.cast_ofNat] at hlt
      exact hlt.trans_le (hj.resolve_left hne).2
    · exact .inr (boundary_below_count hm (by omega) hs)
  refine .of_adjacent (fun m hm ↦ ?_) ?_ fun hone ↦ ⟨?_, fun m hm ↦ ?_⟩
  · rcases hbelow m hm with hlt | heq
    · exact hlt.le
    · rw [heq]
      gcongr
      linarith
  · rcases habove with hlt | heq
    · exact hlt.le
    · rw [heq]
      gcongr
      linarith
  · rcases habove with hlt | heq
    · exact hlt.ne
    · rw [heq, ne_eq, mul_left_inj' hpos.ne']
      exact (hnear.ne_half (hparity ▸ hone)).1
  · rcases hbelow m hm with hlt | heq
    · exact hlt.ne
    · rw [heq, ne_eq, mul_left_inj' hpos.ne', eq_comm]
      exact (hnear.ne_half (hparity ▸ hone)).2

section Fractions

variable {num den : Nat} (hden : 0 < den)

include hden

private theorem spacing_spec (f : Format) (hnum : 0 < num) :
    ∃ j : Nat, f.spacing num den = f.minExponent + j ∧
      (num : ℚ) / den < 2 ^ (f.fractionBits + 1) * 2 ^ (f.minExponent + j) ∧
      (j = 0 ∨ (2 : ℚ) ^ f.fractionBits * 2 ^ (f.minExponent + j) ≤ num / den) := by
  obtain ⟨hle, hlt⟩ := leadingExponent_spec hnum hden
  have hunit : f.minExponent ≤ f.spacing num den := Int.le_max_left ..
  obtain ⟨j, hj⟩ : ∃ j : Nat, f.spacing num den = f.minExponent + j :=
    ⟨(f.spacing num den - f.minExponent).toNat, by omega⟩
  refine ⟨j, hj, ?_, ?_⟩
  · rw [← zpow_natCast, ← zpow_add₀ two_ne_zero]
    refine hlt.trans_le (zpow_le_zpow_right₀ one_le_two ?_)
    rw [spacing] at hj
    push_cast
    omega
  · by_cases hzero : j = 0
    · exact .inl hzero
    · right
      rw [← zpow_natCast, ← zpow_add₀ two_ne_zero]
      refine (zpow_le_zpow_right₀ one_le_two ?_).trans hle
      rw [spacing] at hj
      omega

private theorem exists_round (hf : 0 < f.fractionBits) (hnum : 0 < num) (negative : Bool) :
    ∃ (s j : Nat), (f.round negative num den).magnitude =
        min (s + j * 2 ^ f.fractionBits) f.infinity ∧
      f.RoundsTo (s + j * 2 ^ f.fractionBits) (num / den) ∧
      (j = 0 ∨ 2 ^ f.fractionBits ≤ s) ∧ s ≤ 2 ^ (f.fractionBits + 1) ∧
      NearestEven s (num / den / 2 ^ (f.minExponent + j)) ∧
      f.minExponent + j = f.spacing num den := by
  obtain ⟨j, hj, hbelow, habove⟩ := spacing_spec hden f hnum
  have hquotient : ((num * 2 ^ (-f.spacing num den).toNat : Nat) : ℚ) /
      (den * 2 ^ (f.spacing num den).toNat : Nat) = num / den / 2 ^ (f.minExponent + j) := by
    rw [← hj, zpow_eq_pow_div_pow two_ne_zero (f.spacing num den)]
    push_cast
    field_simp
  have hnear := nearestEven_roundDiv (num * 2 ^ (-f.spacing num den).toNat)
    (Nat.mul_pos hden (Nat.two_pow_pos (f.spacing num den).toNat))
  rw [hquotient] at hnear
  have hpos : (0 : ℚ) < 2 ^ (f.minExponent + j) := by positivity
  generalize hs : roundDiv (num * 2 ^ (-f.spacing num den).toNat)
    (den * 2 ^ (f.spacing num den).toNat) = s at hnear
  have hmost : s ≤ 2 ^ (f.fractionBits + 1) := by
    apply hnear.le_of_le (.self _)
    rw [div_le_iff₀ hpos, Nat.cast_pow, Nat.cast_ofNat]
    exact hbelow.le
  have hleast : j = 0 ∨ 2 ^ f.fractionBits ≤ s := by
    refine habove.imp_right fun h ↦ (NearestEven.self _).le_of_le hnear ?_
    rwa [le_div_iff₀ hpos, Nat.cast_pow, Nat.cast_ofNat]
  refine ⟨s, j, ?_, roundsTo_of_nearestEven hf hnear ?_ hmost hbelow, hleast, hmost, hnear, hj.symm⟩
  · have hplace : (f.spacing num den - f.minExponent).toNat = j := by omega
    simp only [round, if_neg hnum.ne', hs, hplace, Word.saturated]
  · rcases hleast with h | h
    · exact .inl h
    · exact habove.imp_right (.intro h)

/-- The word of a finite magnitude is found for the fractions that are rounded to the magnitude. -/
theorem magnitude_round_eq_iff (hf : 0 < f.fractionBits) (hn : n < f.infinity) (negative : Bool) :
    (f.round negative num den).magnitude = n ↔ f.RoundsTo n (num / den) := by
  rcases Nat.eq_zero_or_pos num with rfl | hnum
  · rw [round, if_pos rfl, Nat.cast_zero, zero_div]
    constructor
    · rintro rfl
      exact .zero f
    · exact fun h ↦ (RoundsTo.zero f).unique h
  · obtain ⟨s, j, hmagnitude, hrounds, -⟩ := exists_round hden hf hnum negative
    rw [hmagnitude]
    constructor
    · intro h
      rwa [← h, Nat.min_eq_left (by omega)]
    · intro h
      rw [hrounds.unique h]
      omega

/-- Rounding a number that is not subnormal, and not beyond the finite ones, moves it by at most a
half in its last place. -/
theorem round_near (hf : 0 < f.fractionBits) (hn : n < f.infinity)
    (hlow : 2 ^ (f.minExponent + f.fractionBits) ≤ (num : ℚ) / den)
    (hhigh : (num : ℚ) / den ≤ f.number n) (negative : Bool) :
    (f.round negative num den).magnitude < f.infinity ∧
      |f.number (f.round negative num den).magnitude - num / den| ≤
        num / den / 2 ^ (f.fractionBits + 1) := by
  have hnum : 0 < num := by
    have hpos : (0 : ℚ) < num / den := lt_of_lt_of_le (by positivity) hlow
    exact_mod_cast (div_pos_iff_of_pos_right (by exact_mod_cast hden)).mp hpos
  obtain ⟨s, j, hmagnitude, hrounds, hleast, hmost, hnear, hj⟩ := exists_round hden hf hnum negative
  have hfinite : s + j * 2 ^ f.fractionBits < f.infinity :=
    lt_of_le_of_lt (hrounds.le_of_le_number hhigh) hn
  rw [hmagnitude, Nat.min_eq_left hfinite.le, number_eq hleast hmost]
  refine ⟨hfinite, ?_⟩
  obtain ⟨hle, hlt⟩ := leadingExponent_spec hnum hden
  have hplace : f.minExponent + j + f.fractionBits ≤ leadingExponent num den := by
    have hnormal := lt_of_le_of_lt hlow hlt
    rw [zpow_lt_zpow_iff_right₀ one_lt_two] at hnormal
    rw [spacing] at hj
    omega
  have hunit : (2 : ℚ) ^ (f.minExponent + j) ≤ num / den / 2 ^ f.fractionBits := by
    rw [le_div_iff₀ (by positivity), ← zpow_natCast, ← zpow_add₀ two_ne_zero]
    exact (zpow_le_zpow_right₀ one_le_two hplace).trans hle
  have hpos : (0 : ℚ) < 2 ^ (f.minExponent + j) := by positivity
  calc |(s : ℚ) * 2 ^ (f.minExponent + j) - num / den|
      = |(s : ℚ) - num / den / 2 ^ (f.minExponent + j)| * 2 ^ (f.minExponent + j) := by
        rw [← abs_of_pos hpos, ← abs_mul, abs_of_pos hpos, sub_mul, div_mul_cancel₀ _ hpos.ne']
    _ ≤ 1 / 2 * (num / den / 2 ^ f.fractionBits) := by
        gcongr
        exact hnear.near
    _ = num / den / 2 ^ (f.fractionBits + 1) := by
        rw [pow_succ]
        ring

end Fractions

end Format

namespace Word

variable {f g : Format} {w : Word f} {n : Nat}

private theorem significand_eq_count (w : Word f) : w.significand = f.count w.magnitude := by
  have hsplit := Nat.div_add_mod' w.magnitude (2 ^ f.fractionBits)
  rw [significand, Format.count, Format.binade]
  split
  · next h => rw [h, Nat.zero_sub, Nat.zero_mul, Nat.sub_zero]
  · next h =>
    obtain ⟨k, hk⟩ := Nat.exists_eq_add_one_of_ne_zero h
    rw [hk, Nat.succ_mul] at hsplit
    rw [hk, Nat.add_sub_cancel]
    omega

/-- A word stands for the number of its magnitude, but for its sign. -/
theorem significand_mul_zpow (w : Word f) :
    (w.significand : ℚ) * 2 ^ w.exponent = f.number w.magnitude := by
  rw [significand_eq_count, Format.number]
  rfl

end Word

end IndexedCodebook
