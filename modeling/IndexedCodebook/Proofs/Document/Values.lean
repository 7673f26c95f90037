import IndexedCodebook.Proofs.Document.Record
import IndexedCodebook.Proofs.Json.Spelling

/-!
# Integers and null in documents

Both formats write a 64-bit integer by its digits and a field that is not set as null, and
understand what they wrote (`writes_integer` and `writes_null` of either format).
-/

namespace IndexedCodebook

namespace Json.Number

private theorem unsigned?_ofWhole (n : UInt64) :
    (ofWhole (Nat.toDigits 10 n.toNat)).unsigned? = some n := by
  have hinteger : (ofWhole (Nat.toDigits 10 n.toNat)).integer? = some n.toNat := by
    rw [integer?, ofWhole, if_pos ⟨rfl, rfl⟩, Nat.ofDigitChars_ten_toDigits]
  have hfits : ¬ ((ofWhole (Nat.toDigits 10 n.toNat)).negative = true ∨ 2 ^ 64 ≤ n.toNat) := by
    have hlt := n.toNat_lt
    simp only [ofWhole, Bool.false_eq_true, false_or]
    omega
  rw [unsigned?, hinteger, Option.bind_eq_bind, Option.bind_some, if_neg hfits, UInt64.ofNat_toNat]

end Json.Number

namespace Yaml.Number

private theorem natural?_toDigits (n : Nat) : natural? (Nat.toDigits 10 n) = some n := by
  have hread := ofDigits?_toDigits n
  -- a leading zero is refused or gives another base, unless it is all there is
  rcases toDigits_cases n with hzero | ⟨d, ds, hds, hne, hdigits⟩
  · rw [hzero] at hread ⊢
    exact hread
  · have hleading : hasLeadingZero (d :: ds) = false := by
      unfold hasLeadingZero
      split
      · next heq => exact absurd (List.cons.inj heq).1 hne
      · rfl
    rw [hds] at hread ⊢
    rw [natural?, hleading]
    · exact hread
    · exact fun _ heq ↦ hne (List.cons.inj heq).1
    · exact fun _ heq ↦ hne (List.cons.inj heq).1
    · exact fun _ heq ↦ hne (List.cons.inj heq).1

private theorem withoutPlus_toDigits (n : Nat) :
    withoutPlus (Nat.toDigits 10 n) = Nat.toDigits 10 n := by
  unfold withoutPlus
  split
  · next rest heq =>
    have hplus : '+'.isDigit = true := isDigit_of_mem_toDigits (heq ▸ List.mem_cons_self)
    cases hplus
  · rfl

private theorem unsigned?_toDigits (n : UInt64) : unsigned? (Nat.toDigits 10 n.toNat) = some n := by
  rw [unsigned?, withoutPlus_toDigits, natural?_toDigits, Option.bind_some, fitting,
    if_pos n.toNat_lt, UInt64.ofNat_toNat]

private theorem toDigits_beq_cons (n : Nat) {c : Char} (hc : c.isDigit = false) (rest : List Char) :
    (Nat.toDigits 10 n == c :: rest) = false := by
  rw [beq_eq_false_iff_ne]
  intro heq
  have hdigit : c.isDigit = true := isDigit_of_mem_toDigits (heq ▸ List.mem_cons_self)
  rw [hc] at hdigit
  cases hdigit

private theorem isNull_toDigits (n : Nat) : isNull (Nat.toDigits 10 n) = false := by
  have hword : "null".toList = ['n', 'u', 'l', 'l'] := rfl
  have hcapital : "null".capitalize.toList = ['N', 'u', 'l', 'l'] := by decide
  have hcapitals : ("null".map Char.toUpper).toList = ['N', 'U', 'L', 'L'] := by decide +kernel
  rw [isNull, isWord, hword, hcapital, hcapitals]
  simp (disch := decide) only [toDigits_beq_cons, Bool.or_false]

end Yaml.Number

namespace Document

private theorem text_integer (style : RealStyle) (n : UInt64) :
    ((Value.integer n).text style).toList = Nat.toDigits 10 n.toNat := by
  simp [Value.text]

/-- Nothing is written as null. -/
theorem text_null (style : RealStyle) : (Value.null.text style).toList = ['n', 'u', 'l', 'l'] :=
  show "null".toList = _ from rfl

namespace Json

variable {name : String} (hname : name.toList.all Json.isPlain = true)

include hname

/-- A field with an integer is written as its digits. -/
theorem writes_integer (n : UInt64) :
    ∃ field : Json.Field, field.Written ∧ Writes (name, .integer n) field := by
  refine ⟨⟨name.toList, Nat.toDigits 10 n.toNat, _, _⟩,
    ⟨hname, Json.writes_toDigits n.toNat⟩, rfl, (text_integer _ n).symm, ?_⟩
  have hread := Json.Number.unsigned?_ofWhole n
  apply Reading.understands_integer
  · exact hread
  · simp only [reading, hread]
    rfl

/-- A field that is not set is written as null. -/
theorem writes_null : ∃ field : Json.Field, field.Written ∧ Writes (name, .null) field := by
  refine ⟨⟨name.toList, _, _, _⟩, ⟨hname, IndexedCodebook.Json.writes_null⟩, rfl,
    (text_null _).symm, ?_⟩
  exact Reading.understands_null rfl

end Json

namespace Yaml

open IndexedCodebook.Yaml

variable {name : String} (hname : IsWord name.toList) (hlength : name.toList.length ≤ 1024)

/-- Digits are characters of words. -/
theorem all_isWordChar_of_isDigit {digits : List Char} (h : ∀ c ∈ digits, c.isDigit = true) :
    digits.all isWordChar = true := by
  rw [List.all_eq_true]
  intro c hc
  simp [isWordChar, Char.isAlphanum, h c hc]

private theorem isWord_toDigits (n : Nat) : IsWord (Nat.toDigits 10 n) where
  ne_nil := Nat.toDigits_ne_nil
  all := all_isWordChar_of_isDigit fun _ ↦ isDigit_of_mem_toDigits
  ne_hyphen := by
    intro heq
    have hhyphen : '-'.isDigit = true := isDigit_of_mem_toDigits (heq ▸ List.mem_cons_self)
    cases hhyphen

include hname hlength

/-- A field with an integer is written as its digits. -/
theorem writes_integer (n : UInt64) : Writes (name, .integer n) where
  name := hname
  length_name := hlength
  text := by
    rw [text_integer]
    exact isWord_toDigits n.toNat
  understands := by
    intro t
    have hread : integer? ⟨.plain, none, Nat.toDigits 10 n.toNat⟩ = some n :=
      Number.unsigned?_toDigits n
    rw [text_integer]
    apply Reading.understands_integer
    · exact hread
    · have hnothing : isNothing? ⟨.plain, none, Nat.toDigits 10 n.toNat⟩ = some false := by
        simp [isNothing?, Number.isNull_toDigits]
      show optionalInteger? ⟨.plain, none, Nat.toDigits 10 n.toNat⟩ = _
      simp [optionalInteger?, hnothing, hread]

/-- A field that is not set is written as null. -/
theorem writes_null : Writes (name, .null) where
  name := hname
  length_name := hlength
  text := by
    rw [text_null]
    exact ⟨by decide, by decide, by decide⟩
  understands := by
    intro t
    rw [text_null]
    exact Reading.understands_null rfl

end Yaml

end Document

end IndexedCodebook
