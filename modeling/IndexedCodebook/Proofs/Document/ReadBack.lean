import IndexedCodebook.Document.Record
import IndexedCodebook.Proofs.Json.Scale

/-!
# Which digits are read back

Both formats read the digits of a real number in double precision and narrow the result to single
precision. One reads the nearest double-precision number, the other one scales an integer by a power
of ten. Away from the boundaries of single precision both read the shortest digits of a word back;
the numbers that are close to a boundary are gone through one by one. Scaling reads all digits back
(`narrowed_scale`), and the nearest double-precision number those of all magnitudes but one
(`narrowed_rounded`): the digits `7.038531e-26` are read as the magnitude after theirs.
-/

namespace IndexedCodebook.Document

open Decimal

/-- The magnitude of the single-precision words whose digits are `7.038531e-26`. The nearest number
of double precision lies halfway to the next magnitude, which is even. -/
def misread : Nat := 0x15ae43fd

/-- Whether a number, read in double precision either way and narrowed, is read as the nearest word,
or is not written for that word. The misread magnitude is passed over where the number is rounded
once. -/
def isReadBack (d : Decimal) : Bool :=
  let w := binary32.round false d.num d.den
  let narrows (y : Double) := (y.convert binary32).magnitude == w.magnitude
  (Json.Number.scale d.trim.coefficient d.trim.exponent).any narrows &&
      (narrows (binary64.round false d.num d.den) || w.magnitude == misread) ||
    decide (shortest .even w ≠ d.trim)

/-- All numbers close to a boundary are read back. -/
theorem isReadBack_nearBoundaries : nearBoundaries.all isReadBack = true := by
  decide +kernel

private theorem shortest_congr {f : Format} (tie : Tie) {w v : Word f}
    (h : w.magnitude = v.magnitude) :
    shortest tie w = shortest tie v := by
  obtain ⟨negative, magnitude, hlt⟩ := w
  obtain ⟨negative', magnitude', hlt'⟩ := v
  obtain rfl : magnitude = magnitude' := h
  rfl

/-- Nor does the magnitude that a finite word is converted to. -/
theorem magnitude_convert_congr {f g : Format} {w v : Word f} (hw : w.isFinite)
    (h : w.magnitude = v.magnitude) : (w.convert g).magnitude = (v.convert g).magnitude := by
  obtain ⟨negative, magnitude, hlt⟩ := w
  obtain ⟨negative', magnitude', hlt'⟩ := v
  obtain rfl : magnitude = magnitude' := h
  have hv : (⟨negative', magnitude, hlt'⟩ : Word f).isFinite := hw
  rw [Word.convert_of_isFinite hw, Word.convert_of_isFinite hv]
  exact Nat.le_antisymm (Format.magnitude_roundScaled_le le_rfl)
    (Format.magnitude_roundScaled_le le_rfl)

section

variable {w : Single} (hw : w.isFinite) (hne : w.magnitude ≠ 0)

include hw hne

private theorem toRat_shortest_mem (tie : Tie) :
    2 ^ (-150 : Int) ≤ (shortest tie w).toRat ∧ (shortest tie w).toRat ≤ 2 ^ (128 : Int) := by
  have hreads := (shortest_single tie hw hne).1
  have hinfinity : w.magnitude < binary32.infinity := of_decide_eq_true hw
  constructor
  · have hlow := hreads.boundary_le 0 (Nat.pos_of_ne_zero hne)
    have hzero : binary32.boundary 0 = 2 ^ (-150 : Int) := by
      have hplace : binary32.lastPlace 0 = -149 := by decide
      have hcount : binary32.count 0 = 0 := by decide
      rw [Format.boundary, hplace, hcount]
      norm_num
    rwa [hzero] at hlow
  · obtain ⟨k, -, hk, -, -, hlt, -⟩ := exists_boundaryPlace hinfinity
    have hhigh := hreads.le_boundary w.magnitude le_rfl
    have hpos : (0 : ℚ) < 2 ^ boundaryPlace k := by positivity
    have hmost : (2 : ℚ) ^ (k + 1) ≤ 2 ^ (128 : Int) :=
      zpow_le_zpow_right₀ one_le_two (by omega)
    linarith

/-- It is positive. -/
theorem toRat_shortest_pos (tie : Tie) : 0 < (shortest tie w).toRat :=
  lt_of_lt_of_le (by positivity) (toRat_shortest_mem hw hne tie).1

private theorem narrowed_of_listed
    (hlisted : ∃ d ∈ nearBoundaries, d.toRat = (shortest .even w).toRat) :
    (∃ y, Json.Number.scale (shortest .even w).coefficient (shortest .even w).exponent = some y ∧
        (y.convert binary32).magnitude = w.magnitude) ∧
      (w.magnitude = misread ∨ ∀ y : Double, y.isFinite → y.Rounds (shortest .even w).toRat →
        (y.convert binary32).magnitude = w.magnitude) := by
  obtain ⟨d, hmem, heq⟩ := hlisted
  obtain ⟨hreads, htrimmed, -⟩ := shortest_single .even hw hne
  have hpos := toRat_shortest_pos hw hne .even
  have htrim : d.trim = shortest .even w := by
    refine d.isTrimmed_trim.eq_of_toRat_eq htrimmed ?_ ?_
    · rwa [toRat_trim, heq]
    · rw [toRat_trim, heq]
  have hmagnitude : (binary32.round false d.num d.den).magnitude = w.magnitude := by
    rw [Format.magnitude_round_eq_iff d.den_pos (by decide) (of_decide_eq_true hw), num_div_den,
      heq]
    exact hreads
  have hback := List.all_eq_true.mp isReadBack_nearBoundaries d hmem
  simp only [isReadBack, htrim, hmagnitude, shortest_congr .even hmagnitude, Bool.or_eq_true,
    Bool.and_eq_true, decide_eq_true_eq, ne_eq, not_true_eq_false, or_false, Option.any_eq_true,
    beq_iff_eq] at hback
  obtain ⟨⟨y, hscale, hy⟩, hrounded⟩ := hback
  refine ⟨⟨y, hscale, hy⟩, hrounded.symm.imp_right fun h z hz hrounds ↦ ?_⟩
  -- the word that was gone through has the same magnitude
  have hrounds' := Word.rounds_round (f := binary64) false d.num d.den_pos
  rw [num_div_den, heq] at hrounds'
  have hsame := hrounds'.magnitude_eq hrounds (by decide) hz
  rw [magnitude_convert_congr (v := z) (by rw [Word.isFinite, hsame]; exact hz) hsame] at h
  exact h

/-- The digits of a word make an integer of nine digits, at a power of ten that is in range. -/
theorem shortest_mem : 0 < (shortest .even w).coefficient ∧
    (shortest .even w).coefficient ≤ 10 ^ 9 ∧ (shortest .even w).exponent.natAbs ≤ 230 := by
  obtain ⟨-, -, hcoefficient, -⟩ := shortest_single .even hw hne
  obtain ⟨hlow, hhigh⟩ := toRat_shortest_mem hw hne .even
  have hpos := coefficient_pos (toRat_shortest_pos hw hne .even)
  refine ⟨hpos, hcoefficient, ?_⟩
  rw [toRat] at hlow hhigh
  generalize (shortest .even w).coefficient = c at *
  generalize (shortest .even w).exponent = p at *
  have hone : (1 : ℚ) ≤ c := by exact_mod_cast hpos
  have hnine : (c : ℚ) ≤ 10 ^ (9 : Int) := by exact_mod_cast hcoefficient
  have hupper : p < 39 := by
    rw [← zpow_lt_zpow_iff_right₀ (by norm_num : (1 : ℚ) < 10)]
    calc (10 : ℚ) ^ p ≤ c * 10 ^ p := le_mul_of_one_le_left (by positivity) hone
      _ ≤ 2 ^ (128 : Int) := hhigh
      _ < 10 ^ (39 : Int) := by norm_num
  have hlower : -46 < 9 + p := by
    rw [← zpow_lt_zpow_iff_right₀ (by norm_num : (1 : ℚ) < 10), zpow_add₀ (by norm_num)]
    calc (10 : ℚ) ^ (-46 : Int) < 2 ^ (-150 : Int) := by norm_num
      _ ≤ c * 10 ^ p := hlow
      _ ≤ 10 ^ (9 : Int) * 10 ^ p := by gcongr
  omega

/-- The digits of a word are read back if they are scaled by a power of ten, also if zeros are put
in for few tens. -/
theorem narrowed_scale {d : Decimal} (hd : d.toRat = (shortest .even w).toRat)
    (h : d = shortest .even w ∨ d.coefficient < 2 ^ 53 ∧ d.exponent.natAbs ≤ 22 ∧
      (shortest .even w).exponent.natAbs ≤ 22) :
    ∃ y, Json.Number.scale d.coefficient d.exponent = some y ∧ y.negative = false ∧
      y.isFinite ∧ (y.convert binary32).magnitude = w.magnitude := by
  obtain ⟨hpos, hcoefficient, hexponent⟩ := shortest_mem hw hne
  obtain ⟨y, hscale, hnegative, hreads, hfew⟩ :=
    Json.Number.readsNear_scale hpos (by omega) hexponent
  have hback : (y.convert binary32).magnitude = w.magnitude := by
    by_cases hlisted : ∃ d ∈ nearBoundaries, d.toRat = (shortest .even w).toRat
    · obtain ⟨⟨z, hz, hmagnitude⟩, -⟩ := narrowed_of_listed hw hne hlisted
      obtain rfl : y = z := Option.some.inj (hscale.symm.trans hz)
      exact hmagnitude
    · exact magnitude_narrowed .even hw hne hreads hlisted
  rcases h with rfl | ⟨hd', htens, htens'⟩
  · exact ⟨y, hscale, hnegative, hreads.finite, hback⟩
  · -- both are rounded once from the same number
    have hpos' : 0 < d.coefficient := coefficient_pos (hd ▸ toRat_shortest_pos hw hne .even)
    obtain ⟨z, hscale', hnegative', hreads', hfew'⟩ :=
      Json.Number.readsNear_scale (p := d.exponent) hpos' hd' (by omega)
    have hrounds := hfew' htens
    rw [← toRat, hd] at hrounds
    have hsame := hrounds.magnitude_eq (hfew htens') (by decide) hreads.finite
    refine ⟨z, hscale', hnegative', hreads'.finite, ?_⟩
    rw [← hback]
    exact magnitude_convert_congr hreads'.finite hsame

/-- The digits of a word that is not misread are read back if they are rounded to double precision.
-/
theorem narrowed_rounded (hmisread : w.magnitude ≠ misread) {y : Double}
    (hy : y.Rounds (shortest .even w).toRat) :
    y.isFinite ∧ (y.convert binary32).magnitude = w.magnitude := by
  obtain ⟨hlow, hhigh⟩ := toRat_shortest_mem hw hne .even
  have hreads : ReadsNear (shortest .even w).toRat y := by
    refine .of_rounds hy (le_trans ?_ hlow) (hhigh.trans ?_)
    · exact zpow_le_zpow_right₀ one_le_two (by decide)
    · exact zpow_le_zpow_right₀ one_le_two (by decide)
  refine ⟨hreads.finite, ?_⟩
  by_cases hlisted : ∃ d ∈ nearBoundaries, d.toRat = (shortest .even w).toRat
  · exact (narrowed_of_listed hw hne hlisted).2.resolve_left hmisread y hreads.finite hy
  · exact magnitude_narrowed .even hw hne hreads hlisted

end

end IndexedCodebook.Document
