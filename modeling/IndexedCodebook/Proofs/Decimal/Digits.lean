import IndexedCodebook.Text.Hexadecimal

/-!
# Decimal digits

The digits of a natural number are digits, do not begin with a zero unless that is all, and are read
back as the number (`ofDigits?_toDigits`).
-/

namespace IndexedCodebook

open Text

private theorem hexValue?_of_isDigit {c : Char} (h : c.isDigit = true) :
    hexValue? c = some (c.toNat - '0'.toNat) ∧ c.toNat - '0'.toNat < 10 := by
  have hrange : '0'.toNat ≤ c.toNat ∧ c.toNat ≤ '9'.toNat := by
    simpa [Char.isDigit, UInt32.le_iff_toNat_le] using h
  constructor
  · exact if_pos hrange
  · simp only [Char.reduceToNat] at hrange ⊢
    omega

/-- Decimal digits are read as the number that they are the digits of. -/
theorem ofDigits?_eq_ofDigitChars {digits : List Char} (hne : digits ≠ [])
    (h : ∀ c ∈ digits, c.isDigit = true) :
    ofDigits? 10 digits = some (Nat.ofDigitChars 10 digits 0) := by
  have hrun : ∀ (more : List Char) (n : Nat), (∀ c ∈ more, c.isDigit = true) →
      more.foldlM (fun n d ↦ do
        let v ← hexValue? d
        if v < 10 then some (n * 10 + v) else none) n = some (Nat.ofDigitChars 10 more n) := by
    -- the number so far goes along: the fold multiplies it before the next digit
    intro more
    induction more with
    | nil => exact fun n _ ↦ rfl
    | cons c more ih =>
      intro n hmore
      obtain ⟨hvalue, hlt⟩ := hexValue?_of_isDigit (hmore c List.mem_cons_self)
      rw [List.foldlM_cons, hvalue, Nat.ofDigitChars_cons, Nat.mul_comm]
      simp only [Option.bind_eq_bind, Option.bind_some, if_pos hlt]
      exact ih _ fun d hd ↦ hmore d (List.mem_cons_of_mem c hd)
  rw [ofDigits?, if_neg (by simpa using hne)]
  exact hrun digits 0 h

/-- The digits of a number are digits. -/
theorem isDigit_of_mem_toDigits {n : Nat} {c : Char} (h : c ∈ Nat.toDigits 10 n) :
    c.isDigit = true :=
  Nat.isDigit_of_mem_toDigits (by decide) (by decide) h

/-- The digits of a number are read back as the number. -/
theorem ofDigits?_toDigits (n : Nat) : ofDigits? 10 (Nat.toDigits 10 n) = some n := by
  rw [ofDigits?_eq_ofDigitChars Nat.toDigits_ne_nil fun _ ↦ isDigit_of_mem_toDigits,
    Nat.ofDigitChars_ten_toDigits]

private theorem head?_toDigits_ne_zero {n : Nat} (h : 0 < n) :
    (Nat.toDigits 10 n).head? ≠ some '0' := by
  induction n using Nat.strongRecOn with
  | ind n ih =>
    rw [Nat.toDigits_eq_if (by decide)]
    split
    · rw [List.head?_cons, ne_eq, Option.some.injEq, Nat.digitChar_eq_zero]
      omega
    · next hge =>
      -- the first digit is that of the number without its last one
      have hfirst := ih (n / 10) (by omega) (by omega)
      have hne : Nat.toDigits 10 (n / 10) ≠ [] := Nat.toDigits_ne_nil
      obtain ⟨d, ds, hds⟩ := List.exists_cons_of_ne_nil hne
      rw [hds] at hfirst ⊢
      exact hfirst

/-- Either a number is zero and has one digit, or its digits do not begin with a zero. -/
theorem toDigits_cases (n : Nat) :
    Nat.toDigits 10 n = ['0'] ∨
      ∃ d ds, Nat.toDigits 10 n = d :: ds ∧ d ≠ '0' ∧ ∀ c ∈ d :: ds, c.isDigit = true := by
  rcases Nat.eq_zero_or_pos n with rfl | hpos
  · exact .inl (Nat.toDigits_zero 10)
  · obtain ⟨d, ds, hds⟩ := List.exists_cons_of_ne_nil (Nat.toDigits_ne_nil (b := 10) (n := n))
    have hhead := head?_toDigits_ne_zero hpos
    rw [hds, List.head?_cons, ne_eq, Option.some.injEq] at hhead
    exact .inr ⟨d, ds, hds, hhead, fun c hc ↦ isDigit_of_mem_toDigits (hds ▸ hc)⟩

/-- So do its first digits. -/
theorem take_toDigits_cases (n k : Nat) :
    (Nat.toDigits 10 n).take (k + 1) = ['0'] ∨
      ∃ d ds, (Nat.toDigits 10 n).take (k + 1) = d :: ds ∧ d ≠ '0' ∧
        ∀ c ∈ d :: ds, c.isDigit = true := by
  rcases toDigits_cases n with h | ⟨d, ds, h, hne, hdigits⟩
  · left
    rw [h, List.take_succ_cons, List.take_nil]
  · refine .inr ⟨d, ds.take k, by rw [h, List.take_succ_cons], hne, fun c hc ↦ hdigits c ?_⟩
    rw [← List.take_succ_cons] at hc
    exact List.mem_of_mem_take hc

/-- Zeros are digits. -/
theorem isDigit_of_mem_zeros {k : Nat} {c : Char} (h : c ∈ List.replicate k '0') :
    c.isDigit = true := by
  rw [List.eq_of_mem_replicate h]
  rfl

/-- So do its digits with zeros after them, if there are none after a zero. -/
theorem toDigits_append_zeros_cases {n k : Nat} (hzero : n = 0 → k = 0) :
    Nat.toDigits 10 n ++ List.replicate k '0' = ['0'] ∨
      ∃ d ds, Nat.toDigits 10 n ++ List.replicate k '0' = d :: ds ∧ d ≠ '0' ∧
        ∀ c ∈ d :: ds, c.isDigit = true := by
  rcases toDigits_cases n with h | ⟨d, ds, h, hne, hdigits⟩
  · have hread : Nat.ofDigitChars 10 (Nat.toDigits 10 n) 0 = n := Nat.ofDigitChars_ten_toDigits
    rw [h] at hread
    left
    rw [h, hzero hread.symm]
    rfl
  · refine .inr ⟨d, ds ++ List.replicate k '0', by rw [h, List.cons_append], hne, fun c hc ↦ ?_⟩
    rw [← List.cons_append] at hc
    rcases List.mem_append.mp hc with hc | hzeros
    · exact hdigits c hc
    · exact isDigit_of_mem_zeros hzeros

end IndexedCodebook
