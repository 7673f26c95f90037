import IndexedCodebook.Text.Hexadecimal
import IndexedCodebook.Yaml.Cursor

/-!
# Quoted scalars

Between single quotes only a doubled quote is special. Between double quotes a backslash begins an
escape: of a character by a letter or by its number in two, four or eight hexadecimal digits, or of
a line break, which then leaves no trace. Other line breaks are folded.

Source: the texts that `serde_yaml` reads for `quant/config` 200.
-/

namespace IndexedCodebook.Yaml

/-- The character of an escape with one letter. -/
def escaped? : Char → Option Char
  | '0' => some '\x00'
  | 'a' => some '\x07'
  | 'b' => some '\x08'
  | 't' | '\t' => some '\t'
  | 'n' => some '\n'
  | 'v' => some '\x0b'
  | 'f' => some '\x0c'
  | 'r' => some '\r'
  | 'e' => some '\x1b'
  | ' ' => some ' '
  | '"' => some '"'
  | '/' => some '/'
  | '\\' => some '\\'
  | 'N' => some '\u0085'
  | '_' => some '\u00a0'
  | 'L' => some '\u2028'
  | 'P' => some '\u2029'
  | _ => none

/-- The character with the number that hexadecimal digits write; surrogates and numbers beyond the
last character are refused. -/
def numbered? (digits : List Char) : Option Char := do
  let n ← Text.ofDigits? 16 digits
  if (0xD800 ≤ n ∧ n < 0xE000) ∨ 0x110000 ≤ n then none else some (Char.ofNat n)

/-- The characters of a single-quoted word as it is written, and the text after it. -/
def singleQuotedRun : List Char → List Char × List Char
  | [] => ([], [])
  | '\'' :: '\'' :: rest =>
      let (run, rest) := singleQuotedRun rest
      ('\'' :: '\'' :: run, rest)
  | c :: rest =>
      if isSpace c || c == '\'' then ([], c :: rest)
      else
        let (run, rest) := singleQuotedRun rest
        (c :: run, rest)

/-- The text of a single-quoted word. -/
def singleQuotedText : List Char → List Char
  | '\'' :: '\'' :: run => '\'' :: singleQuotedText run
  | c :: run => c :: singleQuotedText run
  | [] => []

/-- The characters of a double-quoted word as it is written, and the text after it. A word ends
before an escaped line break. -/
def doubleQuotedRun : List Char → List Char × List Char
  | [] => ([], [])
  | '\\' :: e :: rest =>
      if isBreak e then ([], '\\' :: e :: rest)
      else
        let (run, rest) := doubleQuotedRun rest
        ('\\' :: e :: run, rest)
  | c :: rest =>
      if isSpace c || c == '"' then ([], c :: rest)
      else
        let (run, rest) := doubleQuotedRun rest
        (c :: run, rest)

/-- The text of a double-quoted word. -/
def doubleQuotedText : List Char → Option (List Char)
  | '\\' :: 'x' :: a :: b :: run => do return (← numbered? [a, b]) :: (← doubleQuotedText run)
  | '\\' :: 'u' :: a :: b :: c :: d :: run => do
      return (← numbered? [a, b, c, d]) :: (← doubleQuotedText run)
  | '\\' :: 'U' :: a :: b :: c :: d :: e :: f :: g :: h :: run => do
      return (← numbered? [a, b, c, d, e, f, g, h]) :: (← doubleQuotedText run)
  | '\\' :: e :: run => do return (← escaped? e) :: (← doubleQuotedText run)
  | ['\\'] => none
  | c :: run => do return c :: (← doubleQuotedText run)
  | [] => some []

/-- The characters of a quoted word as it is written, and the text after it. -/
def quotedRun (single : Bool) (cs : List Char) : List Char × List Char :=
  if single then singleQuotedRun cs else doubleQuotedRun cs

/-- The text of a quoted word. -/
def quotedText (single : Bool) (run : List Char) : Option (List Char) :=
  if single then some (singleQuotedText run) else doubleQuotedText run

/-- A single-quoted word and the text after it are the text. -/
theorem append_singleQuotedRun (cs : List Char) :
    (singleQuotedRun cs).1 ++ (singleQuotedRun cs).2 = cs := by
  fun_induction singleQuotedRun cs <;> simp_all

/-- A double-quoted word and the text after it are the text. -/
theorem append_doubleQuotedRun (cs : List Char) :
    (doubleQuotedRun cs).1 ++ (doubleQuotedRun cs).2 = cs := by
  fun_induction doubleQuotedRun cs <;> simp_all

/-- A quoted word and the text after it are the text. -/
theorem append_quotedRun (single : Bool) (cs : List Char) :
    (quotedRun single cs).1 ++ (quotedRun single cs).2 = cs := by
  unfold quotedRun
  split
  · exact append_singleQuotedRun cs
  · exact append_doubleQuotedRun cs

/-- The rest of a text from the end of a word on: the text of the space at a cursor and the place
after it. An escaped line break leaves only the line breaks that follow it. -/
def quotedGap (c : Cursor) : Option (List Char × Cursor) :=
  if c.startsWith isSpace then (c.gap (fun _ _ ↦ false) false).map fun (g, c) ↦ (g.text, c)
  else if c.head? = some '\\' then
    ((c.drop 1).next.gap (fun _ _ ↦ false) true).map fun (g, c) ↦ (g.breaks, c)
  else none

/-- Space between quoted words takes up some of the text. -/
theorem length_quotedGap_lt {c c' : Cursor} {text : List Char}
    (h : quotedGap c = some (text, c')) : c'.rest.length < c.rest.length := by
  unfold quotedGap at h
  split at h
  · next hs =>
    obtain ⟨⟨g, c''⟩, hg, he⟩ := Option.map_eq_some_iff.1 h
    cases he
    exact Cursor.length_gap_lt hs hg
  · split at h
    · next hb =>
      obtain ⟨⟨g, c''⟩, hg, he⟩ := Option.map_eq_some_iff.1 h
      cases he
      have hgap := Cursor.length_gap_le hg
      have hnext := Cursor.length_next_le (c.drop 1)
      have hne : c.rest ≠ [] := by
        intro hnil
        simp [Cursor.head?, hnil] at hb
      have hpos := List.length_pos_iff.2 hne
      simp only [Cursor.drop, Cursor.advance, List.length_drop] at hnext
      simp only [Cursor.drop, Cursor.advance] at hgap
      omega
    · cases h

/-- The text of a quoted scalar from a cursor within it on, and the place after its closing quote. A
document marker or the end of the text inside the quotes is refused. -/
def quotedWords (single : Bool) (c : Cursor) : Option (List Char × Cursor) :=
  if c.atDocumentMarker then none
  else
    let run := quotedRun single c.rest
    let behind := c.advance run.1 run.2
    match quotedText single run.1 with
    | none => none
    | some word =>
        if behind.head? = some (if single then '\'' else '"') then some (word, behind.drop 1)
        else
          match _hg : quotedGap behind with
          | none => none
          | some (space, after) =>
              (quotedWords single after).map fun (more, c) ↦ (word ++ space ++ more, c)
termination_by c.rest.length
decreasing_by
  have hlt := length_quotedGap_lt _hg
  have happ := congrArg List.length (append_quotedRun single c.rest)
  simp only [List.length_append] at happ
  simp only [behind, run, Cursor.advance] at hlt
  omega

/-- The text of the quoted scalar at a cursor, and the place after it. -/
def quotedScalar (single : Bool) (c : Cursor) : Option (List Char × Cursor) :=
  quotedWords single (c.drop 1)

end IndexedCodebook.Yaml
