/-!
# YAML characters and places in a text

A cursor is the rest of a text together with its place: how many octets of UTF-8 come before it,
its line, and how many characters of the line come before it. Reading a line break, of which a
carriage return with a line feed is one, moves to the first column of the next line.

Source: the texts that `serde_yaml` reads for `quant/config` 200.
-/

namespace IndexedCodebook.Yaml

/-- Characters that may stand in a text at all. -/
def isPrintable (c : Char) : Bool :=
  let n := c.toNat
  n == 0x09 || n == 0x0A || n == 0x0D || (0x20 ≤ n && n ≤ 0x7E) || n == 0x85
    || (0xA0 ≤ n && n ≤ 0xD7FF) || (0xE000 ≤ n && n ≤ 0xFFFD) || 0x10000 ≤ n

/-- Characters that end a line. -/
def isBreak (c : Char) : Bool :=
  c == '\n' || c == '\r' || c == '\u0085' || c == '\u2028' || c == '\u2029'

/-- Characters that separate words within a line. -/
def isBlank (c : Char) : Bool := c == ' ' || c == '\t'

/-- Characters that end a word. -/
def isSpace (c : Char) : Bool := isBlank c || isBreak c

/-- Characters of names: of anchors, tag handles and directives. -/
def isNameChar (c : Char) : Bool := c.isAlphanum || c == '_' || c == '-'

/-- Whether a text is at its end or begins with a character that ends a word. -/
def endsWord : List Char → Bool
  | [] => true
  | c :: _ => isSpace c

/-- Whether a text begins with three equal marks that end there as a word. -/
def isMarker (mark : Char) : List Char → Bool
  | a :: b :: c :: rest => a == mark && b == mark && c == mark && endsWord rest
  | _ => false

/-- The rest of a text and its place. -/
structure Cursor where
  rest : List Char
  /-- The octets before the place. -/
  offset : Nat := 0
  line : Nat := 0
  /-- The characters of the line before the place. -/
  column : Nat := 0
  deriving DecidableEq, Repr

namespace Cursor

/-- The first character. -/
def head? (c : Cursor) : Option Char := c.rest.head?

/-- Whether the first character satisfies a test. -/
def startsWith (p : Char → Bool) (c : Cursor) : Bool := c.rest.head?.any p

/-- Whether the text is at its end or begins with a line break. -/
def endsLine (c : Cursor) : Bool :=
  match c.rest with
  | [] => true
  | x :: _ => isBreak x

/-- The place after some characters of the line, before the given rest. -/
def advance (c : Cursor) (passed rest : List Char) : Cursor :=
  { c with
    rest := rest
    offset := passed.foldl (fun offset x ↦ offset + x.utf8Size) c.offset
    column := c.column + passed.length }

/-- The place after one character or one line break. -/
def next (c : Cursor) : Cursor :=
  match c.rest with
  | [] => c
  | '\r' :: '\n' :: rest => ⟨rest, c.offset + 2, c.line + 1, 0⟩
  | x :: rest =>
      if isBreak x then ⟨rest, c.offset + x.utf8Size, c.line + 1, 0⟩ else c.advance [x] rest

/-- The place after `n` characters of the line, or at the end of the text if fewer are left. -/
def drop (c : Cursor) (n : Nat) : Cursor := c.advance (c.rest.take n) (c.rest.drop n)

/-- The characters of the line that satisfy a test, and the place after them. -/
def span (p : Char → Bool) (c : Cursor) : List Char × Cursor :=
  let inside (x : Char) := p x && !isBreak x
  let taken := c.rest.takeWhile inside
  (taken, c.advance taken (c.rest.dropWhile inside))

/-- The place after the characters of the line that satisfy a test. -/
def skip (p : Char → Bool) (c : Cursor) : Cursor := (c.span p).2

/-- The place after a comment, if there is one. -/
def skipComment (c : Cursor) : Cursor :=
  if c.head? = some '#' then c.skip fun _ ↦ true else c

/-- The place after a byte order mark, if the line begins with one. The mark takes up a column. -/
def skipMark (c : Cursor) : Cursor :=
  if c.column = 0 ∧ c.head? = some '\uFEFF' then c.drop 1 else c

/-- Whether the line begins with the marker of a document's start or end. -/
def atDocumentMarker (c : Cursor) : Bool :=
  c.column = 0 && (isMarker '-' c.rest || isMarker '.' c.rest)

/-- The first character, a line break in its normal form: all but two kinds become line feeds. -/
def breakChar (c : Char) : Char := if c == '\u2028' || c == '\u2029' then c else '\n'

/-- Some text is left where a character has a property. -/
theorem rest_ne_nil {c : Cursor} {p : Char → Bool} (h : c.startsWith p = true) : c.rest ≠ [] := by
  intro hnil
  simp [startsWith, hnil] at h

/-- Reading a character shortens the text. -/
theorem length_next_lt {c : Cursor} (h : c.rest ≠ []) : c.next.rest.length < c.rest.length := by
  unfold next
  split
  · next heq => exact absurd heq h
  · next heq => simp only [heq, List.length_cons]; omega
  · next heq => split <;> simp [heq, advance]

/-- Reading a character or nothing does not lengthen the text. -/
theorem length_next_le (c : Cursor) : c.next.rest.length ≤ c.rest.length := by
  by_cases h : c.rest = []
  · simp [next, h]
  · exact Nat.le_of_lt (length_next_lt h)

/-- Dropping characters does not lengthen the text. -/
theorem length_drop_le (c : Cursor) (n : Nat) : (c.drop n).rest.length ≤ c.rest.length := by
  simp [drop, advance]

/-- Skipping characters does not lengthen the text. -/
theorem length_skip_le (c : Cursor) (p : Char → Bool) :
    (c.skip p).rest.length ≤ c.rest.length := by
  simp only [skip, span, advance]
  exact (List.dropWhile_suffix _).length_le

/-- Reading a line with its break shortens the text. -/
theorem length_line_next_lt {c : Cursor} (h : c.rest ≠ []) :
    (c.span fun _ ↦ true).2.next.rest.length < c.rest.length := by
  have hle := length_skip_le c fun _ ↦ true
  have hnext := length_next_le (c.skip fun _ ↦ true)
  simp only [skip] at hle hnext
  match hr : c.rest with
  | [] => exact absurd hr h
  | x :: rest =>
    by_cases hx : isBreak x = true
    · have hne : (c.span fun _ ↦ true).2.rest ≠ [] := by simp [span, advance, hr, hx]
      have := length_next_lt hne
      simp only [hr] at hle
      omega
    · have hlt : (c.span fun _ ↦ true).2.rest.length ≤ rest.length := by
        simp only [span, advance, hr, List.dropWhile_cons]
        rw [ite_cond_eq_true _ _ (by simp [hx])]
        exact (List.dropWhile_suffix _).length_le
      simp only [List.length_cons]
      omega

/-- Skipping a comment does not lengthen the text. -/
theorem length_skipComment_le (c : Cursor) : c.skipComment.rest.length ≤ c.rest.length := by
  unfold skipComment
  split
  · exact length_skip_le c _
  · exact Nat.le_refl _

/-- Skipping a byte order mark does not lengthen the text. -/
theorem length_skipMark_le (c : Cursor) : c.skipMark.rest.length ≤ c.rest.length := by
  unfold skipMark
  split
  · exact length_drop_le c 1
  · exact Nat.le_refl _

end Cursor

/-- What stands between two words of a scalar. -/
structure Gap where
  /-- Blanks before the first line break. -/
  blanks : List Char
  /-- The line breaks, in their normal form. -/
  breaks : List Char
  deriving DecidableEq, Repr

namespace Gap

/-- Whether there is a line break in the gap. -/
def hasBreak (g : Gap) : Bool := !g.breaks.isEmpty

/-- The text that a gap stands for: its blanks if it lies within a line; else a single line feed is
folded into a space and further line breaks are kept. -/
def text (g : Gap) : List Char :=
  match g.breaks with
  | [] => g.blanks
  | '\n' :: [] => [' ']
  | '\n' :: more => more
  | first :: more => first :: more

end Gap

namespace Cursor

/-- The gap at a cursor and the place after it. After a line break, `started` or read, blanks are
not part of the text; those that `isBad` rejects at their column refuse the text. -/
def gap (isBad : Nat → Char → Bool) (started : Bool) (c : Cursor) : Option (Gap × Cursor) :=
  match _h : c.rest with
  | [] => some (⟨[], []⟩, c)
  | x :: _ =>
      if isBlank x then
        if started && isBad c.column x then none
        else
          (gap isBad started c.next).map fun (g, c) ↦
            (if started then g else { g with blanks := x :: g.blanks }, c)
      else if isBreak x then
        (gap isBad true c.next).map fun (g, c) ↦ (⟨[], breakChar x :: g.breaks⟩, c)
      else some (⟨[], []⟩, c)
termination_by c.rest.length
decreasing_by
  · exact length_next_lt (by simp [_h])
  · exact length_next_lt (by simp [_h])

/-- Reading a gap does not lengthen the text. -/
theorem length_gap_le {isBad : Nat → Char → Bool} {started : Bool} {c c' : Cursor} {g : Gap}
    (h : c.gap isBad started = some (g, c')) : c'.rest.length ≤ c.rest.length := by
  fun_induction gap isBad started c generalizing g with
  | case1 => cases h; exact Nat.le_refl _
  | case2 => cases h
  | case3 started c x rest _ _ _ ih =>
    obtain ⟨⟨g', c''⟩, hg, he⟩ := Option.map_eq_some_iff.1 h
    cases he
    exact Nat.le_trans (ih hg) (length_next_le c)
  | case4 started c x rest _ _ _ ih =>
    obtain ⟨⟨g', c''⟩, hg, he⟩ := Option.map_eq_some_iff.1 h
    cases he
    exact Nat.le_trans (ih hg) (length_next_le c)
  | case5 => cases h; exact Nat.le_refl _

/-- Reading a gap where there is one shortens the text. -/
theorem length_gap_lt {isBad : Nat → Char → Bool} {started : Bool} {c c' : Cursor} {g : Gap}
    (hs : c.startsWith isSpace = true) (h : c.gap isBad started = some (g, c')) :
    c'.rest.length < c.rest.length := by
  have hlt := length_next_lt (rest_ne_nil hs)
  rw [gap] at h
  split at h
  · next hnil => exact absurd hnil (rest_ne_nil hs)
  · next x rest hx =>
    have hx' : isBlank x = true ∨ isBreak x = true := by
      simpa [startsWith, hx, isSpace] using hs
    split at h
    · split at h
      · cases h
      · obtain ⟨⟨g', c''⟩, hg, he⟩ := Option.map_eq_some_iff.1 h
        cases he
        exact Nat.lt_of_le_of_lt (length_gap_le hg) hlt
    · next hb =>
      rw [ite_cond_eq_true _ _ (by simpa [hb] using hx')] at h
      obtain ⟨⟨g', c''⟩, hg, he⟩ := Option.map_eq_some_iff.1 h
      cases he
      exact Nat.lt_of_le_of_lt (length_gap_le hg) hlt

end Cursor

end IndexedCodebook.Yaml
