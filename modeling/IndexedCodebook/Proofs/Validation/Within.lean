import IndexedCodebook.Proofs.Binary.Conversion
import IndexedCodebook.Validation.Compare

/-!
# Values within a tolerance

A value, a reference or a tolerance that is not a number never counts as within the tolerance
(`within_eq_false_of_isNaN`).
-/

namespace IndexedCodebook

namespace Word

variable {f : Format}

/-- Absolute values and words agree on what is not a number. -/
theorem isNaN_abs (w : Word f) : w.abs.isNaN = w.isNaN := rfl

/-- A double-precision difference with a term that is not a number is not a number. -/
theorem isNaN_sub {x y : Double} (h : x.isNaN = true ∨ y.isNaN = true) :
    (x.sub y).isNaN = true := by
  have hadd : x.value.add y.value.neg = .nan := by
    rcases h with h | h
    · rw [value_of_isNaN h]
      cases y.value.neg with
      | nan => rfl
      | infinite s => rfl
      | finite s m e => rfl
    · rw [value_of_isNaN h]
      cases x.value with
      | nan => rfl
      | infinite s => rfl
      | finite s m e => rfl
  rw [sub, hadd, isNaN_toWord_nan (by decide)]

/-- A single-precision word that is not a number is no double-precision number either. -/
theorem isNaN_toDouble {w : Single} (h : w.isNaN = true) : (Single.toDouble w).isNaN = true := by
  rw [Single.toDouble, convert, value_of_isNaN h, isNaN_toWord_nan (by decide)]

end Word

namespace Validation

/-- What is not a number is not within any tolerance, and nothing is within a tolerance that is not
a number. -/
theorem within_eq_false_of_isNaN {tolerance expected actual : Double}
    (h : expected.isNaN = true ∨ actual.isNaN = true ∨ tolerance.isNaN = true) :
    within tolerance expected actual = false := by
  rw [within, Word.le, Word.isNaN_abs]
  rcases h with h | h | h
  · rw [Word.isNaN_sub (.inl h)]
    rfl
  · rw [Word.isNaN_sub (.inr h)]
    rfl
  · rw [h]
    simp

end Validation

end IndexedCodebook
