import IndexedCodebook.Json.Number
import IndexedCodebook.Proofs.Json.Object

/-!
# Reading a JSON number that was written

`Number.chars` is the text of a number with or without a fraction and an exponent. A number with
digits where they are needed (`Number.Spelled`) is read from its text, in front of any text that
goes on after a value (`writes_number`). A natural number is written by its digits
(`writes_toDigits`).
-/

namespace IndexedCodebook.Json

namespace Number

/-- The text of the fraction of a number. -/
def fractionChars (n : Number) : List Char :=
  match n.fraction with
  | none => []
  | some digits => '.' :: digits

/-- The text of the exponent of a number; `plus` stands before one that is not negative. -/
def exponentChars (plus : List Char) (n : Number) : List Char :=
  match n.exponent with
  | none => []
  | some (negative, digits) => 'e' :: ((if negative then ['-'] else plus) ++ digits)

/-- The text of a number without its sign. -/
def unsignedChars (plus : List Char) (n : Number) : List Char :=
  n.whole ++ (n.fractionChars ++ n.exponentChars plus)

/-- The text of a number. -/
def chars (plus : List Char) (n : Number) : List Char :=
  (if n.negative then ['-'] else []) ++ n.unsignedChars plus

/-- A number has digits where they are needed, and no leading zero. -/
structure Spelled (n : Number) : Prop where
  whole : n.whole = ['0'] ∨
    ∃ d ds, n.whole = d :: ds ∧ d ≠ '0' ∧ ∀ c ∈ d :: ds, c.isDigit = true
  fraction : ∀ digits, n.fraction = some digits → digits ≠ [] ∧ ∀ c ∈ digits, c.isDigit = true
  exponent : ∀ negative digits, n.exponent = some (negative, digits) →
    digits ≠ [] ∧ ∀ c ∈ digits, c.isDigit = true

variable {n : Number} {plus : List Char}

/-- The digits before the point are digits. -/
theorem Spelled.isDigit_whole (h : n.Spelled) : ∀ c ∈ n.whole, c.isDigit = true := by
  rcases h.whole with heq | ⟨d, ds, heq, -, hdigits⟩
  · rw [heq]
    simp
  · rwa [heq]

/-- There is one. -/
theorem Spelled.whole_ne_nil (h : n.Spelled) : n.whole ≠ [] := by
  rcases h.whole with heq | ⟨d, ds, heq, -⟩ <;> simp [heq]

end Number

/-- A text does not begin with what may follow in a number. -/
def EndsNumber (rest : List Char) : Prop :=
  ∀ c ∈ rest.head?, c.isDigit = false ∧ c ≠ '.' ∧ c ≠ 'e' ∧ c ≠ 'E'

private theorem EndsValue.endsNumber {rest : List Char} (h : EndsValue rest) : EndsNumber rest := by
  cases h <;> simp [EndsNumber]

namespace Number

variable {n : Number} {plus rest : List Char}

private theorem signedDigits?_append {digits : List Char} (hne : digits ≠ [])
    (h : ∀ c ∈ digits, c.isDigit = true) (hrest : ∀ c ∈ rest.head?, c.isDigit = false)
    (hplus : plus = [] ∨ plus = ['+']) (negative : Bool) :
    signedDigits? ((if negative then ['-'] else plus) ++ digits ++ rest) =
      some ((negative, digits), rest) := by
  have hdigits := digits?_append hne h hrest
  cases negative with
  | true => simp [signedDigits?, hdigits]
  | false =>
    rcases hplus with rfl | rfl
    · obtain ⟨d, ds, rfl⟩ := List.exists_cons_of_ne_nil hne
      have hd := h d List.mem_cons_self
      simp only [Bool.false_eq_true, if_false, List.nil_append, List.cons_append] at hdigits ⊢
      rw [signedDigits?]
      · simp [hdigits]
      · rintro _ heq
        rw [(List.cons.inj heq).1] at hd
        cases hd
      · rintro _ heq
        rw [(List.cons.inj heq).1] at hd
        cases hd
    · simp [signedDigits?, hdigits]

private theorem exponent?_append (h : n.Spelled) (hplus : plus = [] ∨ plus = ['+'])
    (hrest : EndsNumber rest) :
    exponent? (n.exponentChars plus ++ rest) = some (n.exponent, rest) := by
  rw [exponentChars]
  cases hexponent : n.exponent with
  | none =>
    cases rest with
    | nil => rfl
    | cons c rest =>
      obtain ⟨-, -, hlower, hupper⟩ := hrest c rfl
      rw [List.nil_append, exponent?]
      · exact fun _ heq ↦ hlower (List.cons.inj heq).1
      · exact fun _ heq ↦ hupper (List.cons.inj heq).1
  | some signed =>
    obtain ⟨negative, digits⟩ := signed
    obtain ⟨hne, hdigits⟩ := h.exponent negative digits hexponent
    have hread := signedDigits?_append hne hdigits (fun c hc ↦ (hrest c hc).1) hplus negative
    simp only [List.cons_append, exponent?, hread]
    rfl

private theorem fraction?_append (h : n.Spelled)
    (hrest : ∀ c ∈ rest.head?, c.isDigit = false ∧ c ≠ '.') :
    fraction? (n.fractionChars ++ rest) = some (n.fraction, rest) := by
  rw [fractionChars]
  cases hfraction : n.fraction with
  | none =>
    cases rest with
    | nil => rfl
    | cons c rest =>
      rw [List.nil_append, fraction?]
      exact fun _ heq ↦ (hrest c rfl).2 (List.cons.inj heq).1
  | some digits =>
    obtain ⟨hne, hdigits⟩ := h.fraction digits hfraction
    have hread := digits?_append hne hdigits fun c hc ↦ (hrest c hc).1
    simp only [List.cons_append, fraction?, hread]
    rfl

private theorem number?_append (h : n.Spelled) (hplus : plus = [] ∨ plus = ['+'])
    (hrest : EndsNumber rest) :
    number? n.negative (n.unsignedChars plus ++ rest) = some (n, rest) := by
  have hexponent := exponent?_append h hplus hrest
  have hraised : ∀ c ∈ (n.exponentChars plus ++ rest).head?, c.isDigit = false ∧ c ≠ '.' := by
    rw [exponentChars]
    cases n.exponent with
    | none => exact fun c hc ↦ ⟨(hrest c hc).1, (hrest c hc).2.1⟩
    | some signed => simp
  have hfraction := fraction?_append h hraised
  have hpointed : ∀ c ∈ (n.fractionChars ++ (n.exponentChars plus ++ rest)).head?,
      c.isDigit = false := by
    rw [fractionChars]
    cases n.fraction with
    | none => exact fun c hc ↦ (hraised c hc).1
    | some digits => simp
  have hwhole := wholeDigits?_append h.whole hpointed
  rw [unsignedChars, List.append_assoc, List.append_assoc, number?, hwhole]
  simp [hfraction, hexponent]

private theorem chars_eq_cons (h : n.Spelled) (plus : List Char) :
    ∃ c word, n.chars plus = c :: word ∧ (c = '-' ∨ c.isDigit = true) := by
  obtain ⟨d, ds, hwhole⟩ := List.exists_cons_of_ne_nil h.whole_ne_nil
  have hd := h.isDigit_whole d (hwhole ▸ List.mem_cons_self)
  rw [chars, unsignedChars, hwhole]
  cases n.negative with
  | true => exact ⟨'-', _, rfl, .inl rfl⟩
  | false => exact ⟨d, _, rfl, .inr hd⟩

private theorem token?_chars (h : n.Spelled) (hplus : plus = [] ∨ plus = ['+'])
    (hrest : EndsNumber rest) : token? (n.chars plus ++ rest) = some (.number n, rest) := by
  have hread := number?_append h hplus hrest
  obtain ⟨d, ds, hwhole⟩ := List.exists_cons_of_ne_nil h.whole_ne_nil
  have hd := h.isDigit_whole d (hwhole ▸ List.mem_cons_self)
  cases hnegative : n.negative with
  | true =>
    rw [hnegative] at hread
    simp only [chars, hnegative, if_true, List.cons_append, List.nil_append, token?, hread]
    rfl
  | false =>
    rw [hnegative] at hread
    rw [chars, hnegative]
    simp only [Bool.false_eq_true, if_false, List.nil_append]
    rw [unsignedChars, hwhole] at hread ⊢
    simp only [List.cons_append] at hread ⊢
    rw [token?_of_isDigit hd, hread]
    rfl

end Number

/-- A number is written by its text. -/
theorem writes_number {n : Number} (h : n.Spelled) {plus : List Char}
    (hplus : plus = [] ∨ plus = ['+']) : Writes (n.chars plus) (.number n) (.number n) := by
  constructor
  · obtain ⟨c, word, heq, hc⟩ := Number.chars_eq_cons h plus
    refine ⟨c, word, heq, ?_⟩
    rcases hc with rfl | hc
    · rfl
    · exact isBlank_of_isDigit hc
  · exact fun rest hrest ↦ Number.token?_chars h hplus hrest.endsNumber
  · exact fun _ _ ↦ rfl

private theorem Number.spelled_ofWhole (n : Nat) : (ofWhole (Nat.toDigits 10 n)).Spelled where
  whole := toDigits_cases n
  fraction _ h := nomatch h
  exponent _ _ h := nomatch h

/-- A natural number is written by its digits. -/
theorem writes_toDigits (n : Nat) :
    Writes (Nat.toDigits 10 n) (.number (.ofWhole (Nat.toDigits 10 n)))
      (.number (.ofWhole (Nat.toDigits 10 n))) := by
  have hwrites : Writes ((Number.ofWhole (Nat.toDigits 10 n)).chars []) _ _ :=
    writes_number (Number.spelled_ofWhole n) (.inl rfl)
  have hchars : (Number.ofWhole (Nat.toDigits 10 n)).chars [] = Nat.toDigits 10 n := by
    simp [Number.chars, Number.unsignedChars, Number.fractionChars, Number.exponentChars,
      Number.ofWhole]
  rwa [hchars] at hwrites

end IndexedCodebook.Json
