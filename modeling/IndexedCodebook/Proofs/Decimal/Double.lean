import IndexedCodebook.Proofs.Binary.RoundedWord
import IndexedCodebook.Proofs.Decimal.Separation

/-!
# Short decimal numbers read by way of double precision

A reader that rounds in double precision before it narrows to single precision finds the number of a
boundary exactly, and other numbers up to a small error (`ReadsNear`). That is enough to read the
shortest digits of a word back, but for those that are close to a boundary (`magnitude_narrowed`).
-/

namespace IndexedCodebook

/-- A number between these bounds is rounded to double precision with a half in the last place. -/
theorem Double.near {w : Double} {q : ℚ} (h : w.Rounds q) (hlow : 2 ^ (-1000 : Int) ≤ q)
    (hhigh : q ≤ 2 ^ (1000 : Int)) :
    w.isFinite ∧ |binary64.number w.magnitude - q| ≤ q / 2 ^ 53 := by
  have hmin : binary64.minExponent = -1074 := by decide
  have hnumber : binary64.number (2 ^ 52 + 2022 * 2 ^ 52) = 2 ^ (1000 : Int) := by
    have hnumber := Format.number_eq (f := binary64) (s := 2 ^ 52) (j := 2022) (.inr le_rfl)
      (by decide)
    rw [hmin, show binary64.fractionBits = 52 from rfl] at hnumber
    rw [hnumber, Nat.cast_pow, Nat.cast_ofNat, ← zpow_natCast, ← zpow_add₀ two_ne_zero]
    rfl
  refine h.near (by decide) (n := 2 ^ 52 + 2022 * 2 ^ 52) (by decide) ?_ (hnumber ▸ hhigh)
  exact (zpow_le_zpow_right₀ one_le_two (by decide)).trans hlow

/-- An integer of at most 53 bits is a double-precision number, also after some doubling or halving.
-/
theorem Double.eq_scaled {w : Double} {m : Nat} {e : Int} (h : w.Rounds (m * 2 ^ e))
    (hm : m < 2 ^ 53) (hlow : -1000 ≤ e) (hhigh : e ≤ 900) :
    w.isFinite ∧ binary64.number w.magnitude = m * 2 ^ e := by
  have hmin : binary64.minExponent = -1074 := by decide
  have hmax : binary64.maxExponent = 1023 := by decide
  refine Word.Rounds.eq_scaled h (by decide) (by decide) hm (by omega) ?_
  have hcast : (m : ℚ) < 2 ^ (53 : Int) := by exact_mod_cast hm
  rw [hmax]
  calc (m : ℚ) * 2 ^ e < 2 ^ (53 : Int) * 2 ^ e := by gcongr
    _ = 2 ^ (53 + e) := (zpow_add₀ two_ne_zero ..).symm
    _ ≤ 2 ^ (1023 + 1 : Int) := zpow_le_zpow_right₀ one_le_two (by omega)

namespace Decimal

/-- What a reader in double precision does with a number: it gives a boundary of single precision
unchanged, and every number up to three halves in its last place. -/
structure ReadsNear (q : ℚ) (w : Double) : Prop where
  finite : w.isFinite
  near : |binary64.number w.magnitude - q| ≤ 3 * q / 2 ^ 53
  exact : ∀ n < binary32.infinity, q = binary32.boundary n → binary64.number w.magnitude = q

private theorem le_of_roundsTo {M n : Nat} {q : ℚ} (h : binary32.RoundsTo M q)
    (hn : n = M ∨ n + 1 = M) :
    q ≤ (2 ^ 24 + 1) * 2 ^ binary32.lastPlace n := by
  have hcount : (binary32.count n : ℚ) + 1 ≤ 2 ^ 24 := by
    exact_mod_cast (binary32.count_lt n : binary32.count n < 2 ^ 24)
  have hpos : (0 : ℚ) < 2 ^ binary32.lastPlace n := by positivity
  have hnext : binary32.number (n + 1) ≤ 2 ^ 24 * 2 ^ binary32.lastPlace n := by
    rw [Format.number_succ, Format.number, ← add_one_mul]
    gcongr
  rcases hn with rfl | rfl
  · have hle := h.le_boundary n le_rfl
    have hlt := binary32.boundary_lt_number n
    linarith
  · have hle := h.le_boundary (n + 1) le_rfl
    have hplace : (2 : ℚ) ^ (binary32.lastPlace (n + 1) - 1) ≤ 2 ^ binary32.lastPlace n :=
      zpow_le_zpow_right₀ one_le_two (by have := binary32.lastPlace_succ_le n; omega)
    rw [binary32.boundary_eq] at hle
    linarith

private theorem roundsTo_of_readsNear {M : Nat} {q : ℚ} {w : Double} (h : binary32.RoundsTo M q)
    (hM : M < binary32.infinity) (hw : ReadsNear q w)
    (hsep : ∀ n, n = M ∨ n + 1 = M → q = binary32.boundary n ∨
      2 ^ (binary32.lastPlace n - 27) < |q - binary32.boundary n|) :
    binary32.RoundsTo M (binary64.number w.magnitude) := by
  by_cases hat : ∃ n, (n = M ∨ n + 1 = M) ∧ q = binary32.boundary n
  · obtain ⟨n, hn, heq⟩ := hat
    rwa [hw.exact n (by omega) heq]
  -- the error is less than the distance from the boundary
  have haway : ∀ n, n = M ∨ n + 1 = M →
      |binary64.number w.magnitude - q| < |q - binary32.boundary n| := by
    intro n hn
    have hless := (hsep n hn).resolve_left fun heq ↦ hat ⟨n, hn, heq⟩
    have hq := le_of_roundsTo h hn
    have hplace : (2 : ℚ) ^ (binary32.lastPlace n - 27) = 2 ^ binary32.lastPlace n / 2 ^ 27 := by
      rw [zpow_sub₀ two_ne_zero]
      norm_num
    have hpos : (0 : ℚ) < 2 ^ binary32.lastPlace n := by positivity
    have hnear := hw.near
    rw [hplace] at hless
    linarith
  have hbelow : ∀ n, M = n + 1 → binary32.boundary n < binary64.number w.magnitude := by
    intro n hn
    have hle := h.boundary_le n (by omega)
    have hlt := haway n (.inr hn.symm)
    rw [abs_of_nonneg (sub_nonneg.mpr hle)] at hlt
    linarith [(abs_lt.mp hlt).1]
  have habove : binary64.number w.magnitude < binary32.boundary M := by
    have hle := h.le_boundary M le_rfl
    have hlt := haway M (.inl rfl)
    rw [abs_of_nonpos (sub_nonpos.mpr hle)] at hlt
    linarith [(abs_lt.mp hlt).2]
  exact .of_adjacent (fun n hn ↦ (hbelow n hn).le) habove.le
    fun _ ↦ ⟨habove.ne, fun n hn ↦ (hbelow n hn).ne⟩

/-- The shortest digits of a word are read back, by way of double precision, unless they are close
to a boundary. -/
theorem magnitude_narrowed (tie : Tie) {w : Single} {y : Double} (hw : w.isFinite)
    (hne : w.magnitude ≠ 0) (hy : ReadsNear (shortest tie w).toRat y)
    (hlisted : ¬ ∃ d ∈ nearBoundaries, d.toRat = (shortest tie w).toRat) :
    (y.convert binary32).magnitude = w.magnitude := by
  have hfinite : w.magnitude < binary32.infinity := of_decide_eq_true hw
  rw [(Word.rounds_convert hy.finite).magnitude_eq_iff (by decide) hfinite]
  refine roundsTo_of_readsNear (shortest_single tie hw hne).1 hfinite hy fun n hn ↦ ?_
  exact (separated tie hw hne hn).imp_right fun h ↦ h.resolve_right hlisted

/-- A number that is rounded once to double precision is read so. -/
theorem ReadsNear.of_rounds {q : ℚ} {w : Double} (h : w.Rounds q) (hlow : 2 ^ (-1000 : Int) ≤ q)
    (hhigh : q ≤ 2 ^ (1000 : Int)) : ReadsNear q w := by
  obtain ⟨hfinite, hnear⟩ := Double.near h hlow hhigh
  have hpos : (0 : ℚ) < 2 ^ (-1000 : Int) := by positivity
  refine ⟨hfinite, hnear.trans (by gcongr; linarith), fun n hn heq ↦ ?_⟩
  obtain ⟨k, hk, hk', hplace, -⟩ := exists_boundaryPlace hn
  have hcount : binary32.count n < 2 ^ 24 := binary32.count_lt n
  rw [heq, Format.boundary, ← hplace] at h ⊢
  rw [boundaryPlace] at h ⊢
  exact (Double.eq_scaled h (by omega) (by omega) (by omega)).2

end Decimal

end IndexedCodebook
