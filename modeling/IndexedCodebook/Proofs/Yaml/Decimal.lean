import IndexedCodebook.Proofs.Decimal.Digits
import IndexedCodebook.Proofs.Json.Decimal
import IndexedCodebook.Yaml.Number

/-!
# Reading a decimal number in YAML

The text of a number that is spelled as in JSON is also one in YAML: without its sign it is read as
the same decimal number (`decimal?_unsignedChars`), and with its sign as the nearest word of double
precision (`real?_chars`).
-/

namespace IndexedCodebook.Yaml.Number

private theorem exponentSize?_eq {digits : List Char} (hne : digits ≠ [])
    (h : ∀ c ∈ digits, c.isDigit = true) (hlt : Nat.ofDigitChars 10 digits 0 < 65536) :
    exponentSize? digits = some (Nat.ofDigitChars 10 digits 0 : Int) := by
  have hrun : ∀ (more : List Char) (size : Nat), Nat.ofDigitChars 10 more size < 65536 →
      more.foldl (fun size d ↦
        if size < 65536 then size * 10 + (d.toNat - '0'.toNat) else size) size =
          Nat.ofDigitChars 10 more size := by
    -- the size so far is at most the size in the end
    intro more
    induction more with
    | nil => exact fun _ _ ↦ rfl
    | cons d more ih =>
      intro size hsize
      have hle := Json.Number.le_ofDigitChars (d :: more) size
      rw [Nat.ofDigitChars_cons, Nat.mul_comm] at hsize
      rw [List.foldl_cons, if_pos (by rw [Nat.ofDigitChars_cons, Nat.mul_comm] at hle; omega),
        ih _ hsize, Nat.ofDigitChars_cons, Nat.mul_comm 10]
  rw [exponentSize?, if_neg (by simpa [hne] using h), hrun digits 0 hlt]

private theorem ne_of_isDigit {c d : Char} (h : c.isDigit = true) (hd : d.isDigit = false) :
    c ≠ d := by
  rintro rfl
  rw [h] at hd
  cases hd

section

variable {n : Json.Number} (h : n.Spelled) {plus : List Char} (hplus : plus = [] ∨ plus = ['+'])

include h

private theorem isDigit_fraction : ∀ c ∈ n.fraction.getD [], c.isDigit = true := by
  cases hfraction : n.fraction with
  | none => simp
  | some digits => exact (h.fraction digits hfraction).2

private theorem split_unsignedChars (plus : List Char) :
    (n.unsignedChars plus).takeWhile (fun c ↦ !isExponentMark c) = n.whole ++ n.fractionChars ∧
      (n.unsignedChars plus).dropWhile (fun c ↦ !isExponentMark c) = n.exponentChars plus := by
  have hdigit : ∀ {c : Char}, c.isDigit = true → (!isExponentMark c) = true := by
    intro c hc
    have hlower := ne_of_isDigit hc (d := 'e') rfl
    have hupper := ne_of_isDigit hc (d := 'E') rfl
    simp [isExponentMark, hlower, hupper]
  have hall : ∀ c ∈ n.whole ++ n.fractionChars, (!isExponentMark c) = true := by
    intro c hc
    rcases List.mem_append.mp hc with hwhole | hfraction
    · exact hdigit (h.isDigit_whole c hwhole)
    · rw [Json.Number.fractionChars] at hfraction
      have hdigits := isDigit_fraction h
      cases hsome : n.fraction with
      | none => simp [hsome] at hfraction
      | some digits =>
        rw [hsome] at hfraction hdigits
        rcases List.mem_cons.mp hfraction with rfl | hmem
        · rfl
        · exact hdigit (hdigits c hmem)
  have hexponent : (n.exponentChars plus).takeWhile (fun c ↦ !isExponentMark c) = [] ∧
      (n.exponentChars plus).dropWhile (fun c ↦ !isExponentMark c) = n.exponentChars plus := by
    rw [Json.Number.exponentChars]
    cases n.exponent with
    | none => exact ⟨rfl, rfl⟩
    | some signed => simp [isExponentMark]
  rw [Json.Number.unsignedChars, ← List.append_assoc, List.takeWhile_append_of_pos hall,
    List.dropWhile_append_of_pos hall, hexponent.1, hexponent.2, List.append_nil]
  exact ⟨rfl, rfl⟩

private theorem split_fractionChars :
    (n.whole ++ n.fractionChars).takeWhile (· != '.') = n.whole ∧
      ((n.whole ++ n.fractionChars).dropWhile (· != '.')).drop 1 = n.fraction.getD [] := by
  have hall : ∀ c ∈ n.whole, (c != '.') = true := fun c hc ↦
    bne_iff_ne.mpr (ne_of_isDigit (h.isDigit_whole c hc) rfl)
  have hfraction : n.fractionChars.takeWhile (· != '.') = [] ∧
      (n.fractionChars.dropWhile (· != '.')).drop 1 = n.fraction.getD [] := by
    rw [Json.Number.fractionChars]
    cases n.fraction with
    | none => exact ⟨rfl, rfl⟩
    | some digits => simp
  rw [List.takeWhile_append_of_pos hall, List.dropWhile_append_of_pos hall, hfraction.1,
    hfraction.2, List.append_nil]
  exact ⟨rfl, rfl⟩

include hplus

private theorem exponent?_eq (hpower : n.power.natAbs < 65536) :
    (match n.exponentChars plus with
      | [] => some 0
      | _ :: rest => exponent? rest) = some n.power := by
  rw [Json.Number.power] at hpower ⊢
  rw [Json.Number.exponentChars]
  cases hexponent : n.exponent with
  | none => rfl
  | some signed =>
    obtain ⟨negative, digits⟩ := signed
    obtain ⟨hne, hdigits⟩ := h.exponent negative digits hexponent
    simp only [hexponent] at hpower ⊢
    have hsize := exponentSize?_eq hne hdigits (by split at hpower <;> omega)
    cases negative with
    | true => simp [exponent?, hsize]
    | false =>
      rcases hplus with rfl | rfl
      · obtain ⟨d, ds, rfl⟩ := List.exists_cons_of_ne_nil hne
        have hd := hdigits d List.mem_cons_self
        simp only [Bool.false_eq_true, if_false, List.nil_append]
        rw [exponent?, hsize]
        · exact fun _ heq ↦ ne_of_isDigit hd rfl (List.cons.inj heq).1
        · exact fun _ heq ↦ ne_of_isDigit hd rfl (List.cons.inj heq).1
      · simp [exponent?, hsize]

private theorem decimal?_unsignedChars (hpower : n.power.natAbs < 65536) :
    decimal? (n.unsignedChars plus) = some n.decimal := by
  have hexponent := exponent?_eq h hplus hpower
  have hdigits : Text.ofDigits? 10 (n.whole ++ n.fraction.getD []) =
      some n.decimal.coefficient := by
    refine ofDigits?_eq_ofDigitChars (by simp [h.whole_ne_nil]) fun c hc ↦ ?_
    rcases List.mem_append.mp hc with hwhole | hfraction
    · exact h.isDigit_whole c hwhole
    · exact isDigit_fraction h c hfraction
  simp only [decimal?, (split_unsignedChars h plus).1, (split_unsignedChars h plus).2,
    (split_fractionChars h).1, (split_fractionChars h).2, hdigits]
  cases hchars : n.exponentChars plus with
  | nil =>
    rw [hchars] at hexponent
    simp only [Json.Number.decimal, ← Option.some.inj hexponent]
    rfl
  | cons c rest =>
    rw [hchars] at hexponent
    simp only [hexponent]
    rfl

/-- The text of a number is read as the nearest double-precision word, if that is finite. -/
theorem real?_chars (hpower : n.power.natAbs < 65536)
    (hfinite : (n.decimal.toWord binary64 n.negative).isFinite) :
    real? (n.chars plus) = some (n.decimal.toWord binary64 n.negative) := by
  have hdecimal := decimal?_unsignedChars h hplus hpower
  obtain ⟨d, ds, hwhole⟩ := List.exists_cons_of_ne_nil h.whole_ne_nil
  have hd := h.isDigit_whole d (hwhole ▸ List.mem_cons_self)
  have htext : n.unsignedChars plus = d :: (ds ++ (n.fractionChars ++ n.exponentChars plus)) := by
    rw [Json.Number.unsignedChars, hwhole, List.cons_append]
  generalize ds ++ (n.fractionChars ++ n.exponentChars plus) = rest at htext
  rw [htext] at hdecimal
  have hinfinity : isInfinity (d :: rest) = false := by
    rw [isInfinity]
    exact fun _ heq ↦ ne_of_isDigit hd rfl (List.cons.inj heq).1
  rw [Json.Number.chars, htext]
  cases hnegative : n.negative with
  | true =>
    rw [hnegative] at hfinite
    simp [real?, hinfinity, signedDecimal?, hdecimal, finite, hfinite]
  | false =>
    rw [hnegative] at hfinite
    have hnan : isNaN (d :: rest) = false := by
      rw [isNaN]
      exact fun _ heq ↦ ne_of_isDigit hd rfl (List.cons.inj heq).1
    have hsigned : signedDecimal? (d :: rest) =
        (decimal? (d :: rest)).bind fun d ↦ finite (d.toWord binary64 false) := by
      rw [signedDecimal?]
      exact fun _ heq ↦ ne_of_isDigit hd rfl (List.cons.inj heq).1
    simp only [Bool.false_eq_true, if_false, List.nil_append]
    rw [real?]
    · simp [hinfinity, hnan, hsigned, hdecimal, finite, hfinite]
    · exact fun _ heq ↦ ne_of_isDigit hd rfl (List.cons.inj heq).1
    · exact fun _ heq ↦ ne_of_isDigit hd rfl (List.cons.inj heq).1

end

end IndexedCodebook.Yaml.Number
