import IndexedCodebook.Yaml.PlainScalar

/-!
# Plain words

A plain word has no character that structures a text or ends a word. Before the end of a word it is
a plain scalar: before a colon that ends it (`plainScalar_colon`), and before a line that is not
indented (`plainScalar_lineFeed`).
-/

namespace IndexedCodebook.Yaml

/-- Characters of plain words. -/
def isWordChar (c : Char) : Bool :=
  c.isAlphanum || c == '_' || c == '.' || c == '-' || c == '+'

/-- Characters of words are no others. -/
theorem ne_of_isWordChar {c d : Char} (h : isWordChar c = true) (hd : isWordChar d = false) :
    c ≠ d := by
  rintro rfl
  rw [h] at hd
  cases hd

private theorem toNat_of_isWordChar {c : Char} (h : isWordChar c = true) :
    0x2B ≤ c.toNat ∧ c.toNat ≤ 0x7A := by
  -- letters of both cases and digits are ranges; the other characters are four single ones
  have hletter : c.isAlpha = (decide ('A'.val ≤ c.val ∧ c.val ≤ 'Z'.val) ||
      decide ('a'.val ≤ c.val) && decide (c.val ≤ 'z'.val)) := rfl
  have hdigit : c.isDigit = (decide ('0'.val ≤ c.val) && decide (c.val ≤ '9'.val)) := rfl
  simp only [isWordChar, Char.isAlphanum, hletter, hdigit, Bool.or_eq_true, Bool.and_eq_true,
    decide_eq_true_eq, beq_iff_eq, UInt32.le_iff_toNat_le] at h
  rcases h with (((((h | h) | h) | rfl) | rfl) | rfl) | rfl
  · exact ⟨Nat.le_trans (by decide) h.1, Nat.le_trans h.2 (by decide)⟩
  · exact ⟨Nat.le_trans (by decide) h.1, Nat.le_trans h.2 (by decide)⟩
  · exact ⟨Nat.le_trans (by decide) h.1, Nat.le_trans h.2 (by decide)⟩
  · decide
  · decide
  · decide
  · decide

/-- Characters of words may stand in a text. -/
theorem isPrintable_of_isWordChar {c : Char} (h : isWordChar c = true) : isPrintable c = true := by
  obtain ⟨hlow, hhigh⟩ := toNat_of_isWordChar h
  have hvisible : 0x20 ≤ c.toNat ∧ c.toNat ≤ 0x7E := by omega
  simp [isPrintable, hvisible]

private theorem utf8Size_of_isWordChar {c : Char} (h : isWordChar c = true) : c.utf8Size = 1 := by
  obtain ⟨-, hhigh⟩ := toNat_of_isWordChar h
  have hle : c.val ≤ 0x7F := by
    rw [UInt32.le_iff_toNat_le]
    exact Nat.le_trans hhigh (by decide)
  exact if_pos hle

/-- Characters of words do not end words. -/
theorem isSpace_of_isWordChar {c : Char} (h : isWordChar c = true) : isSpace c = false := by
  have hne {d : Char} (hd : isWordChar d = false) : (c == d) = false :=
    beq_eq_false_iff_ne.mpr (ne_of_isWordChar h hd)
  simp (disch := decide) [isSpace, isBlank, isBreak, hne]

/-- A plain word: some characters, not the hyphen of a sequence alone. -/
structure IsWord (word : List Char) : Prop where
  ne_nil : word ≠ []
  all : word.all isWordChar = true
  ne_hyphen : word ≠ ['-']

/-- Every character of a word is one of words. -/
theorem IsWord.isWordChar {word : List Char} (h : IsWord word) :
    ∀ c ∈ word, isWordChar c = true :=
  List.all_eq_true.mp h.all

/-! ## Cursors -/

namespace Cursor

/-- Passing nothing changes nothing. -/
theorem advance_nil {c : Cursor} {rest : List Char} (h : c.rest = rest) :
    c.advance [] rest = c := by
  subst h
  rfl

/-- Characters of words are passed in as many octets. -/
theorem offset_advance {passed : List Char} (h : ∀ x ∈ passed, isWordChar x = true) (c : Cursor)
    (rest : List Char) : (c.advance passed rest).offset = c.offset + passed.length := by
  have hrun : ∀ n, passed.foldl (fun offset x ↦ offset + x.utf8Size) n = n + passed.length := by
    induction passed with
    | nil => exact fun _ ↦ rfl
    | cons x passed ih =>
      intro n
      rw [List.foldl_cons, ih fun y hy ↦ h y (List.mem_cons_of_mem x hy),
        utf8Size_of_isWordChar (h x List.mem_cons_self), List.length_cons]
      omega
  exact hrun c.offset

/-- Document markers stand in the first column. -/
theorem atDocumentMarker_of_column {c : Cursor} (h : c.column ≠ 0) :
    c.atDocumentMarker = false := by
  simp [atDocumentMarker, h]

private theorem gap_eq_nil {c : Cursor} (h : c.startsWith isSpace = false)
    (isBad : Nat → Char → Bool) (started : Bool) : c.gap isBad started = some (⟨[], []⟩, c) := by
  rw [gap]
  split
  · rfl
  · next x rest hx =>
    have hspace : isBlank x = false ∧ isBreak x = false := by
      simpa [startsWith, hx, isSpace] using h
    simp [hspace]

private theorem gap_lineFeed {c : Cursor} {more : List Char} (hrest : c.rest = '\n' :: more)
    (h : c.next.startsWith isSpace = false) (isBad : Nat → Char → Bool) :
    c.gap isBad false = some (⟨[], ['\n']⟩, c.next) := by
  rw [gap]
  split
  · next hnil => simp [hrest] at hnil
  · next x rest hx =>
    rw [hrest] at hx
    obtain ⟨rfl, -⟩ := List.cons.inj hx
    simp only [gap_eq_nil h]
    rfl

end Cursor

/-! ## Plain scalars -/

/-- A word ends before a text. -/
def StopsWord (rest : List Char) : Prop := plainWord false rest = some ([], rest)

private theorem plainWord_append {word rest : List Char} (h : ∀ c ∈ word, isWordChar c = true)
    (hrest : StopsWord rest) : plainWord false (word ++ rest) = some (word, rest) := by
  induction word with
  | nil => exact hrest
  | cons c word ih =>
    have hc := h c List.mem_cons_self
    have hcolon : (c == ':') = false := beq_eq_false_iff_ne.mpr (ne_of_isWordChar hc (by decide))
    rw [List.cons_append, plainWord]
    simp [isSpace_of_isWordChar hc, hcolon, ih fun d hd ↦ h d (List.mem_cons_of_mem c hd)]

variable {word rest : List Char} {c : Cursor} {indent : Int}

private theorem plainScalar_eq (h : IsWord word) (hc : c.rest = word ++ rest)
    (hrest : StopsWord rest)
    (hmarker : c.atDocumentMarker = false) {after : Cursor} {hasBreak : Bool}
    (hafter : (c.advance word rest).startsWith isSpace = false ∧ after = c.advance word rest ∧
        hasBreak = false ∨
      (c.advance word rest).startsWith isSpace = true ∧ (after.column : Int) ≤ indent ∧
        ∃ gap : Gap, hasBreak = gap.hasBreak ∧
          ∀ isBad, (c.advance word rest).gap isBad false = some (gap, after)) :
    plainScalar false indent c = some (word, after, hasBreak) := by
  obtain ⟨first, others, rfl⟩ := List.exists_cons_of_ne_nil h.ne_nil
  have hhash : c.head? ≠ some '#' := by
    rw [Cursor.head?, hc, List.cons_append, List.head?_cons, ne_eq, Option.some.injEq]
    exact ne_of_isWordChar (h.isWordChar first List.mem_cons_self) (by decide)
  have hword := plainWord_append h.isWordChar hrest
  rw [← hc] at hword
  rw [plainScalar, plainWords, hmarker, Bool.false_or, if_neg (by simpa using hhash)]
  split
  · next hw => simp [hword] at hw
  · next word' rest' hw =>
    rw [hword] at hw
    cases hw
    -- behind its first word the scalar ends, at a character that is no space or at a line that
    -- does not continue it
    rcases hafter with ⟨hspace, rfl, rfl⟩ | ⟨hspace, hcolumn, gap, rfl, hgap⟩
    · simp [hspace]
    · rw [dif_pos hspace]
      simp only [List.isEmpty_cons, Bool.false_eq_true, if_false]
      split
      · next hg => simp [hgap] at hg
      · next gap' after' hg =>
        rw [hgap] at hg
        cases hg
        simp [hcolumn]

/-- A word before a colon that ends it is a plain scalar. -/
theorem plainScalar_colon (h : IsWord word) (hc : c.rest = word ++ ':' :: ' ' :: rest)
    (hmarker : c.atDocumentMarker = false) :
    plainScalar false indent c = some (word, c.advance word (':' :: ' ' :: rest), false) :=
  plainScalar_eq h hc rfl hmarker (.inl ⟨rfl, rfl, rfl⟩)

/-- A word before a line that is not indented is a plain scalar. -/
theorem plainScalar_lineFeed (h : IsWord word) (hc : c.rest = word ++ '\n' :: rest)
    (hmarker : c.atDocumentMarker = false) (hindent : 0 ≤ indent)
    (hrest : (c.advance word ('\n' :: rest)).next.startsWith isSpace = false) :
    plainScalar false indent c =
      some (word, (c.advance word ('\n' :: rest)).next, true) :=
  plainScalar_eq h hc rfl hmarker
    (.inr ⟨rfl, hindent, _, rfl, fun isBad ↦ Cursor.gap_lineFeed rfl hrest isBad⟩)

end IndexedCodebook.Yaml
