import IndexedCodebook.Yaml.Cursor

/-!
# Block scalars

A block scalar takes the lines that are indented more than its context, without their indentation.
A header may set the indentation by a digit, and may ask by `+` to keep all line breaks at the end
or by `-` to keep none. Literal scalars keep their line breaks; folded ones join lines that begin
with a word.

Source: the texts that `serde_yaml` reads for `quant/config` 200.
-/

namespace IndexedCodebook.Yaml.BlockScalar

/-- What becomes of the line breaks at the end. -/
inductive Chomping where
  /-- Keep one. -/
  | clip
  /-- Keep none. -/
  | strip
  /-- Keep all. -/
  | keep
  deriving DecidableEq, Repr

/-- The chomping mark at a cursor, if there is one. -/
def chomping (c : Cursor) : Chomping × Cursor :=
  if c.head? = some '+' then (.keep, c.drop 1)
  else if c.head? = some '-' then (.strip, c.drop 1)
  else (.clip, c)

/-- The indentation digit at a cursor, or zero if there is none; the digit zero is refused. -/
def indentation (c : Cursor) : Option (Nat × Cursor) :=
  match c.head? with
  | some d =>
      if d == '0' then none
      else if d.isDigit then some (d.toNat - '0'.toNat, c.drop 1)
      else some (0, c)
  | none => some (0, c)

/-- The header of a block scalar after its first mark: the chomping and the indentation digit in
either order, blanks, a comment, and the end of the line. -/
def header (c : Cursor) : Option (Chomping × Nat × Cursor) := do
  let (first, c') := chomping c
  let (digit, c') ← indentation c'
  let (chomp, c') := if first = .clip ∧ digit ≠ 0 then chomping c' else (first, c')
  let c' := (c'.skip isBlank).skipComment
  if c'.endsLine then return (chomp, digit, c'.next) else none

/-- The line breaks from a cursor on, the widest indentation before or after one of them, and the
place of the next line that is not empty. Spaces are indentation up to the column `indent`, or all
of them where it is zero; a tab among them is refused. -/
def breaks (indent : Nat) (c : Cursor) : Option (List Char × Nat × Cursor) :=
  let spaces := (c.rest.takeWhile (· == ' ')).length
  let start := c.drop (if indent = 0 then spaces else min spaces (indent - c.column))
  if (indent = 0 ∨ start.column < indent) ∧ start.head? = some '\t' then none
  else if _hs : start.startsWith isBreak then
    (breaks indent start.next).map fun (more, widest, after) ↦
      ((start.head?.toList.map Cursor.breakChar) ++ more, max start.column widest, after)
  else some ([], start.column, start)
termination_by c.rest.length
decreasing_by
  exact Nat.lt_of_lt_of_le (Cursor.length_next_lt (Cursor.rest_ne_nil _hs))
    (Cursor.length_drop_le c _)

/-- Reading line breaks does not lengthen the text. -/
theorem length_breaks_le {indent widest : Nat} {c c' : Cursor} {text : List Char}
    (h : breaks indent c = some (text, widest, c')) : c'.rest.length ≤ c.rest.length := by
  fun_induction breaks indent c generalizing text widest with
  | case1 => cases h
  | case2 c =>
    rename_i ih
    obtain ⟨⟨more, w, after⟩, hb, he⟩ := Option.map_eq_some_iff.1 h
    cases he
    exact Nat.le_trans (ih hb)
      (Nat.le_trans (Cursor.length_next_le _) (Cursor.length_drop_le c _))
  | case3 c =>
    simp only [Option.some.injEq, Prod.mk.injEq] at h
    obtain ⟨_, _, rfl⟩ := h
    exact Cursor.length_drop_le c _

/-- The text of a folded or literal line that begins at a cursor, after the line break and the empty
lines before it. A single break between two lines that begin with words is folded. -/
def joint (literal : Bool) (before : List Char) (emptyLines : List Char)
    (afterBlank isBlank : Bool) : List Char :=
  if !literal && before == ['\n'] && !afterBlank && !isBlank then
    if emptyLines.isEmpty then [' '] else emptyLines
  else before ++ emptyLines

/-- The lines of a block scalar of the given indentation. `before` is the break that ended the last
line, `emptyLines` are the breaks after it, and `afterBlank` says whether that line began with a
blank. The result is the text, the last line break, the breaks after it, and the place after them.
-/
def lines (literal : Bool) (indent : Nat) (before emptyLines : List Char) (afterBlank : Bool)
    (c : Cursor) : Option (List Char × List Char × List Char × Cursor) :=
  if _hc : c.column = indent ∧ c.rest ≠ [] then
    let startsBlank := c.startsWith isBlank
    let joined := joint literal before emptyLines afterBlank startsBlank
    let line := c.span fun _ ↦ true
    let ending := line.2.head?.toList.map Cursor.breakChar
    match _hb : breaks indent line.2.next with
    | none => none
    | some (empty, _, after) =>
        (lines literal indent ending empty startsBlank after).map fun (text, last, tail, c) ↦
          (joined ++ line.1 ++ text, last, tail, c)
  else some ([], before, emptyLines, c)
termination_by c.rest.length
decreasing_by
  have hle := length_breaks_le _hb
  have hlt := Cursor.length_line_next_lt _hc.2
  exact Nat.lt_of_le_of_lt hle hlt

/-- The text of the block scalar at a cursor in a context of the given indentation, and the place
after it. -/
def read (literal : Bool) (context : Int) (c : Cursor) : Option (List Char × Cursor) := do
  let (chomp, digit, c) ← header (c.drop 1)
  let given := if digit = 0 then 0 else (max context 0).toNat + digit
  let (emptyLines, widest, c) ← breaks given c
  let indent := if given = 0 then max (max widest (context + 1).toNat) 1 else given
  let (text, last, tail, c) ← lines literal indent [] emptyLines false c
  let ending := match chomp with
    | .strip => []
    | .clip => last
    | .keep => last ++ tail
  return (text ++ ending, c)

end IndexedCodebook.Yaml.BlockScalar
