import IndexedCodebook.Yaml.Cursor

/-!
# Plain scalars

A plain scalar is written without quotes. It ends before a comment, before a colon that ends a word,
before a document marker, in block context before a line that is not indented more than the context,
and in flow context before the characters that structure a flow collection.

Source: the texts that `serde_yaml` reads for `quant/config` 200.
-/

namespace IndexedCodebook.Yaml

/-- Characters that structure a flow collection. -/
def isFlowMark (c : Char) : Bool := c == ',' || c == '[' || c == ']' || c == '{' || c == '}'

/-- The word at the start of a text, without a colon that ends it, and the text after it. In flow
context a word ends at the marks of flow collections, and a colon just before one is refused. -/
def plainWord (flow : Bool) : List Char → Option (List Char × List Char)
  | [] => some ([], [])
  | c :: rest =>
      if isSpace c then some ([], c :: rest)
      else if flow && c == ':' && rest.head?.any (fun d ↦ isFlowMark d || d == '?') then none
      else if c == ':' && endsWord rest then some ([], c :: rest)
      else if flow && isFlowMark c then some ([], c :: rest)
      else do
        let (word, rest) ← plainWord flow rest
        return (c :: word, rest)

/-- A word and the text after it are the text. -/
theorem append_of_plainWord {flow : Bool} {cs word rest : List Char}
    (h : plainWord flow cs = some (word, rest)) : word ++ rest = cs := by
  fun_induction plainWord flow cs generalizing word with
  | case1 => cases h; rfl
  | case2 => cases h; rfl
  | case3 => cases h
  | case4 => cases h; rfl
  | case5 => cases h; rfl
  | case6 c tail _ _ _ _ ih =>
    obtain ⟨⟨w, r⟩, hw, he⟩ := Option.bind_eq_some_iff.1 h
    cases he
    simp [ih hw]

/-- The words of a plain scalar from a cursor on, the place after the scalar and the space behind
it, and whether that space holds a line break. `gapText` is the text of the space before the first
word, to be added only if there is such a word, and `hasBreak` says whether a line break was in it.
-/
def plainWords (flow : Bool) (indent : Int) (gapText : List Char) (hasBreak : Bool) (c : Cursor) :
    Option (List Char × Cursor × Bool) :=
  if c.atDocumentMarker || c.head? = some '#' then some ([], c, hasBreak)
  else
    match _hw : plainWord flow c.rest with
    | none => none
    | some (word, rest) =>
        let behind := c.advance word rest
        let text := if word.isEmpty then [] else gapText ++ word
        if _hs : behind.startsWith isSpace then
          let isBad (column : Nat) (x : Char) := x == '\t' && decide ((column : Int) ≤ indent)
          match _hg : behind.gap isBad false with
          | none => none
          | some (gap, after) =>
              if !flow && decide ((after.column : Int) ≤ indent) then
                some (text, after, gap.hasBreak)
              else
                (plainWords flow indent gap.text gap.hasBreak after).map fun (more, c, hasBreak) ↦
                  (text ++ more, c, hasBreak)
        else some (text, behind, word.isEmpty && hasBreak)
termination_by c.rest.length
decreasing_by
  have hlt := Cursor.length_gap_lt _hs _hg
  have happ := congrArg List.length (append_of_plainWord _hw)
  simp only [List.length_append] at happ
  simp only [behind, Cursor.advance] at hlt
  omega

/-- The text of a plain scalar within a context of the given indentation, the place after it and
after the space behind it, and whether that space holds a line break. -/
def plainScalar (flow : Bool) (indent : Int) (c : Cursor) : Option (List Char × Cursor × Bool) :=
  plainWords flow indent [] false c

end IndexedCodebook.Yaml
