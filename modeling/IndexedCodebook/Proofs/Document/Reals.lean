import IndexedCodebook.Document.Json
import IndexedCodebook.Document.Yaml
import IndexedCodebook.Proofs.Binary.Order
import IndexedCodebook.Proofs.Decimal.Notation
import IndexedCodebook.Proofs.Document.ReadBack
import IndexedCodebook.Proofs.Document.Values
import IndexedCodebook.Proofs.Yaml.Decimal

/-!
# Real numbers in documents

Both formats spell a finite number in the same way (`realNumber`), but for a plus sign. JSON reads
every finite number back (`toSingle?_realNumber`) and writes the others as null. YAML has words for
them, and reads all numbers back but those of one magnitude (`Yaml.meant`).
-/

namespace IndexedCodebook.Document

open Decimal

/-- How a finite number is spelled in a document: with a point if that is near the digits, and with
an exponent else. -/
def realNumber (w : Single) : Json.Number :=
  let d := shortest .even w
  if -6 < d.point ∧ d.point ≤ 13 then positionalNumber w.negative d.digits d.point
  else scientificNumber w.negative d.digits d.point

section

variable (w : Single)

private theorem negative_realNumber : (realNumber w).negative = w.negative := by
  simp only [realNumber]
  split
  · exact negative_positionalNumber ..
  · rfl

private theorem isSome_realNumber :
    (realNumber w).fraction.isSome = true ∨ (realNumber w).exponent.isSome = true := by
  simp only [realNumber]
  split
  · exact .inl (isSome_fraction_positionalNumber ..)
  · exact .inr rfl

/-- The text of a finite number in a style of documents. -/
theorem finiteText_eq (plus : List Char) (nan infinity negativeInfinity : String) :
    ({ realStyle with plus, nan, infinity, negativeInfinity } : RealStyle).finiteText w =
      (realNumber w).chars plus := by
  have hne : (shortest .even w).digits ≠ [] := Nat.toDigits_ne_nil
  rw [Json.Number.chars, negative_realNumber]
  simp only [RealStyle.finiteText, realStyle, realNumber, decide_eq_true_eq]
  congr 1
  split
  · rw [unsignedChars_positionalNumber]
  · rw [unsignedChars_scientificNumber _ _ _ _ hne]

private theorem shortest_zero {w : Single} (h : w.magnitude = 0) : shortest .even w = ⟨0, 0⟩ := by
  simp only [shortest, if_pos h]

end

section

variable {w : Single} (hw : w.isFinite)

include hw

private theorem digits_mem : (shortest .even w).coefficient ≤ 10 ^ 9 ∧
    (shortest .even w).exponent.natAbs ≤ 230 ∧ (shortest .even w).digits.length ≤ 10 ∧
      ((shortest .even w).coefficient = 0 → (shortest .even w).exponent = 0) := by
  have hlength : ∀ d : Decimal, d.coefficient ≤ 10 ^ 9 → d.digits.length ≤ 10 := by
    intro d hd
    exact (Nat.length_toDigits_le_iff (by decide) (by decide)).mpr (by omega)
  by_cases hne : w.magnitude = 0
  · rw [shortest_zero hne]
    exact ⟨by decide, by decide, hlength ⟨0, 0⟩ (by decide), fun _ ↦ rfl⟩
  · obtain ⟨hpos, hcoefficient, hexponent⟩ := shortest_mem hw hne
    exact ⟨hcoefficient, hexponent, hlength _ hcoefficient, fun hzero ↦ by omega⟩

private theorem natAbs_power_realNumber_le : (realNumber w).power.natAbs ≤ 241 := by
  obtain ⟨-, hexponent, hlength, -⟩ := digits_mem hw
  have hpoint : (shortest .even w).point =
      (shortest .even w).digits.length + (shortest .even w).exponent := rfl
  simp only [realNumber]
  split
  · simp [Json.Number.power]
  · simp only [Json.Number.power, scientificNumber, Nat.ofDigitChars_ten_toDigits]
    split <;> omega

/-- There are digits where they are needed. -/
theorem spelled_realNumber : (realNumber w).Spelled := by
  simp only [realNumber]
  split
  · exact spelled_positionalNumber _ _ (digits_mem hw).2.2.2
  · exact spelled_scientificNumber ..

private theorem decimal_realNumber : (realNumber w).decimal.toRat = (shortest .even w).toRat ∧
    (realNumber w).decimal.coefficient < 2 ^ 53 ∧
    ((realNumber w).decimal = shortest .even w ∨ (realNumber w).decimal.exponent = -1 ∧
      (shortest .even w).exponent.natAbs ≤ 22) := by
  obtain ⟨hcoefficient, -, -, -⟩ := digits_mem hw
  have hlt := (shortest .even w).coefficient_lt
  have hlength := (shortest .even w).length_digits_pos
  have hpoint : (shortest .even w).point =
      (shortest .even w).digits.length + (shortest .even w).exponent := rfl
  have hsame : ∀ {d : Decimal}, d = shortest .even w →
      d.toRat = (shortest .even w).toRat ∧ d.coefficient < 2 ^ 53 ∧
        (d = shortest .even w ∨ d.exponent = -1 ∧ (shortest .even w).exponent.natAbs ≤ 22) := by
    rintro _ rfl
    exact ⟨rfl, by omega, .inl rfl⟩
  simp only [realNumber]
  split
  · next hnear =>
    rcases decimal_positionalNumber (shortest .even w) w.negative with heq | ⟨k, hk, heq⟩
    · exact hsame heq
    · rw [heq]
      refine ⟨?_, ?_, .inr ⟨rfl, by omega⟩⟩
      · have hzeros := toRat_mul_ten_pow (shortest .even w).coefficient (k + 1) k
        rw [← hk] at hzeros
        have hexponent : (shortest .even w).exponent - ((k + 1 : Nat) : Int) = -1 := by omega
        rwa [hexponent] at hzeros
      · calc (shortest .even w).coefficient * 10 ^ (k + 1)
            < 10 ^ (shortest .even w).digits.length * 10 ^ (k + 1) :=
              Nat.mul_lt_mul_of_pos_right hlt (Nat.pow_pos (by decide))
          _ = 10 ^ ((shortest .even w).digits.length + (k + 1)) := (Nat.pow_add ..).symm
          _ ≤ 10 ^ 14 := Nat.pow_le_pow_right (by decide) (by omega)
          _ < 2 ^ 53 := by decide
  · exact hsame (decimal_scientificNumber ..)

end

private theorem convert_eq {y : Double} {w : Single} (hy : y.isFinite)
    (hnegative : y.negative = w.negative)
    (h : (y.convert binary32).magnitude = w.magnitude) : y.convert binary32 = w :=
  Word.ext ((Word.negative_convert (Word.isNaN_of_isFinite hy)).trans hnegative) h

private theorem eq_of_magnitude {f : Format} {w : Word f} {m : Nat} (hm : m < 2 ^ f.magnitudeBits)
    (h : w.magnitude = m) : w = ⟨false, m, hm⟩ ∨ w = ⟨true, m, hm⟩ := by
  cases hnegative : w.negative with
  | false => exact .inl (Word.ext hnegative h)
  | true => exact .inr (Word.ext hnegative h)

namespace Json

/-- JSON reads every finite number back. -/
theorem toSingle?_realNumber {w : Single} (hw : w.isFinite) :
    (realNumber w).toSingle? = some w := by
  by_cases hne : w.magnitude = 0
  · rcases eq_of_magnitude (by decide) hne with rfl | rfl <;> decide +kernel
  obtain ⟨hvalue, hlt, hdigits⟩ := decimal_realNumber hw
  obtain ⟨y, hscale, hnegative, hfinite, hback⟩ := narrowed_scale hw hne hvalue
    (hdigits.imp_right fun h ↦ ⟨hlt, by rw [h.1]; decide, h.2⟩)
  have hpower := natAbs_power_realNumber_le hw
  have hsign : (y.withSign w.negative).negative = w.negative := by
    simp [Word.withSign, hnegative]
  have hmagnitude : ((y.withSign w.negative).convert binary32).magnitude = w.magnitude := by
    rw [← hback]
    exact magnitude_convert_congr hfinite rfl
  rw [Json.Number.toSingle?_eq (isSome_realNumber w),
    Json.Number.magnitude?_eq (by omega) (by omega), hscale, Option.map_some, negative_realNumber]
  exact congrArg some (convert_eq hfinite hsign hmagnitude)

end Json

namespace Yaml

open IndexedCodebook.Yaml

/-- The single-precision word that YAML reads from the text of a word: a NaN is read as the usual
one, and a word of the misread magnitude as the next one. -/
def meant (w : Single) : Single :=
  if w.isNaN then Word.nan
  else if w.magnitude = misread then Word.saturated w.negative (misread + 1)
  else w

private theorem toWord_eq_round {d : Decimal} (hpos : d.coefficient ≠ 0) (hlow : -1000 ≤ d.point)
    (hhigh : d.point ≤ 1000) (negative : Bool) :
    d.toWord binary64 negative = binary64.round negative d.num d.den := by
  have hmin : binary64.minExponent = -1074 := by decide
  have hbits : binary64.exponentBits = 11 := rfl
  rw [toWord, if_neg hpos, if_neg (by rw [hbits]; omega), if_neg (by rw [hmin]; omega)]

private theorem toWord_realNumber {w : Single} (hw : w.isFinite) (hne : w.magnitude ≠ 0) :
    (realNumber w).decimal.toWord binary64 w.negative =
      binary64.round w.negative (realNumber w).decimal.num (realNumber w).decimal.den := by
  obtain ⟨hvalue, hlt, hdigits⟩ := decimal_realNumber hw
  obtain ⟨-, hexponent, -, -⟩ := digits_mem hw
  have hpos : 0 < (realNumber w).decimal.coefficient :=
    coefficient_pos (hvalue ▸ toRat_shortest_pos hw hne .even)
  have hlong : (realNumber w).decimal.digits.length ≤ 16 :=
    (Nat.length_toDigits_le_iff (by decide) (by decide)).mpr (by omega)
  have hplace : (realNumber w).decimal.exponent.natAbs ≤ 230 := by
    rcases hdigits with heq | ⟨heq, -⟩
    · rwa [heq]
    · rw [heq]
      decide
  have hpoint : (realNumber w).decimal.point =
      (realNumber w).decimal.digits.length + (realNumber w).decimal.exponent := rfl
  exact toWord_eq_round hpos.ne' (by omega) (by omega) _

/-- YAML reads the text of a finite number as what is meant. -/
theorem real?_realNumber {w : Single} (hw : w.isFinite) :
    (Number.real? ((realNumber w).chars [])).map (·.convert binary32) = some (meant w) := by
  by_cases hne : w.magnitude = 0
  · rcases eq_of_magnitude (by decide) hne with rfl | rfl <;> decide +kernel
  by_cases hmisread : w.magnitude = misread
  · rcases eq_of_magnitude (by decide) hmisread with rfl | rfl <;> decide +kernel
  have hmeant : meant w = w := by
    rw [meant, if_neg (by rw [Word.isNaN_of_isFinite hw]; decide), if_neg hmisread]
  have hpower := natAbs_power_realNumber_le hw
  have hround := toWord_realNumber hw hne
  have hrounds : ((realNumber w).decimal.toWord binary64 w.negative).Rounds
      (shortest .even w).toRat := by
    rw [hround, ← (decimal_realNumber hw).1, ← num_div_den]
    exact Word.rounds_round _ _ (den_pos _)
  obtain ⟨hfinite, hback⟩ := narrowed_rounded hw hne hmisread hrounds
  have hnegative : ((realNumber w).decimal.toWord binary64 w.negative).negative = w.negative := by
    rw [hround, Word.negative_round]
  have hread : Number.real? ((realNumber w).chars []) = _ :=
    Number.real?_chars (spelled_realNumber hw) (.inl rfl) (by omega)
      (by rwa [negative_realNumber])
  rw [hread, Option.map_some, negative_realNumber, hmeant]
  exact congrArg some (convert_eq hfinite hnegative hback)

end Yaml

end IndexedCodebook.Document
