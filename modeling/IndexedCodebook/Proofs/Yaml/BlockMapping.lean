import IndexedCodebook.Proofs.Yaml.PlainWord
import IndexedCodebook.Yaml.Tree

/-!
# Reading a YAML block mapping that was written

A mapping of plain words, a line for each pair of them, is read as its pairs in order
(`Tree.parse?_lines`). Every line takes three steps: the key is a scalar, the colon behind it puts
the marks of a key, and of the mapping before the first one, in front of that scalar, and the value
is a scalar up to the next line.
-/

namespace IndexedCodebook.Yaml

/-! ## Steps -/

namespace Scan

variable {s : Scan} {first : Char} {others : List Char}

/-- A token begins at a text, or the text is at its end. -/
def Begins (text : List Char) : Prop :=
  ∀ x ∈ text.head?, isSpace x = false ∧ x ≠ '#' ∧ x ≠ '\uFEFF'

private theorem skipLine_eq {passed rest : List Char} (hc : s.cursor.rest = passed ++ rest)
    (hpassed : ∀ x ∈ passed, x = ' ') (hrest : Begins rest) :
    s.skipLine = s.cursor.advance passed rest := by
  have hmark : s.cursor.head? ≠ some '\uFEFF' := by
    rw [Cursor.head?, hc]
    cases passed with
    | nil => exact fun h ↦ (hrest _ h).2.2 rfl
    | cons x passed => simp [hpassed x List.mem_cons_self]
  -- whether tabs count depends on the state, but nothing that is passed is one
  let inside (x : Char) : Bool :=
    (x == ' ' || ((s.inFlow || !s.keyAllowed) && x == '\t')) && !isBreak x
  have hinside : ∀ x ∈ passed, inside x = true := by
    intro x hx
    rw [hpassed x hx]
    rfl
  have hnone : rest.takeWhile inside = [] ∧ rest.dropWhile inside = rest := by
    cases rest with
    | nil => exact ⟨rfl, rfl⟩
    | cons x rest =>
      have hspace := (hrest x rfl).1
      simp only [isSpace, isBlank, Bool.or_eq_false_iff] at hspace
      simp [inside, hspace]
  have hskip : (s.cursor.skip fun x ↦ x == ' ' || ((s.inFlow || !s.keyAllowed) && x == '\t')) =
      s.cursor.advance passed rest := by
    have htake : s.cursor.rest.takeWhile inside = passed := by
      rw [hc, List.takeWhile_append_of_pos hinside, hnone.1, List.append_nil]
    have hdrop : s.cursor.rest.dropWhile inside = rest := by
      rw [hc, List.dropWhile_append_of_pos hinside, hnone.2]
    show s.cursor.advance (s.cursor.rest.takeWhile inside) (s.cursor.rest.dropWhile inside) = _
    rw [htake, hdrop]
  have hcomment : (s.cursor.advance passed rest).head? ≠ some '#' :=
    fun h ↦ (hrest _ h).2.1 rfl
  rw [skipLine, Cursor.skipMark, if_neg (not_and_of_not_right _ hmark)]
  simp only [hskip, Cursor.skipComment, if_neg hcomment]

private theorem skipSpace_eq (passed : List Char) {rest : List Char}
    (hc : s.cursor.rest = passed ++ rest) (hpassed : ∀ x ∈ passed, x = ' ') (hrest : Begins rest) :
    s.skipSpace = { s with cursor := s.cursor.advance passed rest } := by
  have hbreak : (s.cursor.advance passed rest).startsWith isBreak = false := by
    cases rest with
    | nil => rfl
    | cons x rest =>
      have hspace := (hrest x rfl).1
      simp only [isSpace, Bool.or_eq_false_iff] at hspace
      exact hspace.2
  rw [skipSpace, skipLine_eq hc hpassed hrest]
  simp [hbreak]

private theorem closeBlocks_eq {column : Int} (h : s.indent ≤ column) :
    s.closeBlocks column = s := by
  have hcolumns :
      closeColumns column s.indent s.outer s.tokens = (s.indent, s.outer, s.tokens) := by
    cases s.outer with
    | nil => rfl
    | cons next outer => rw [closeColumns, if_neg (by omega)]
  rw [closeBlocks, hcolumns]
  split
  · rfl
  · rfl

private theorem run_succ {s' : Scan} (passed : List Char)
    (hc : s.cursor.rest = passed ++ first :: others) (hpassed : ∀ x ∈ passed, x = ' ')
    (hbegins : Begins (first :: others)) (hindent : s.indent ≤ s.cursor.column)
    (htoken : { s with cursor := s.cursor.advance passed (first :: others) }.token first others =
      some s') (fuel : Nat) :
    run (fuel + 1) s = run fuel s' := by
  have hcolumn : s.indent ≤ ((s.cursor.advance passed (first :: others)).column : Nat) :=
    Int.le_trans hindent (Int.ofNat_le.mpr (Nat.le_add_right ..))
  have hclose := closeBlocks_eq
    (s := { s with cursor := s.cursor.advance passed (first :: others) }) hcolumn
  rw [run.eq_def (fuel + 1) s]
  simp only [skipSpace_eq passed hc hpassed hbegins, hclose]
  show ({ s with cursor := s.cursor.advance passed (first :: others) }.token first others).bind
    (run fuel) = _
  rw [htoken, Option.bind_some]

private theorem token_word (hfirst : isWordChar first = true)
    (hhyphen : first = '-' → endsWord others = false)
    (hmarker : s.cursor.atDocumentMarker = false) : s.token first others = s.plain := by
  have hne {d : Char} (hd : isWordChar d = false) : (first == d) = false :=
    beq_eq_false_iff_ne.mpr (ne_of_isWordChar hfirst hd)
  have hplain : startsPlain s.inFlow first others = true := by
    -- the hyphen is the only character of words that may begin something else
    by_cases hfirst' : first = '-'
    · subst hfirst'
      have hblank : others.head?.any isBlank = false := by
        cases others with
        | nil => rfl
        | cons x others =>
          have hends : isSpace x = false := hhyphen rfl
          rw [isSpace, Bool.or_eq_false_iff] at hends
          exact hends.1
      simp [startsPlain, hblank]
    · have hindicator : isIndicator first = false := by
        simp (disch := decide) [isIndicator, hfirst', ne_of_isWordChar hfirst]
      simp [startsPlain, hindicator, isSpace_of_isWordChar hfirst]
  have hentry : (first == '-' && endsWord others) = false := by
    by_cases hfirst' : first = '-'
    · rw [hhyphen hfirst', Bool.and_false]
    · simp [hfirst']
  simp (disch := decide) [token, hmarker, hplain, hentry, hne]

private theorem token_colon (hmarker : s.cursor.atDocumentMarker = false) (rest : List Char) :
    s.token ':' (' ' :: rest) = s.value := by
  simp [token, hmarker, show endsWord (' ' :: rest) = true from rfl]

private theorem insertIdxIfInBounds_size (before after : Array Token) (t : Token) :
    (before ++ after).insertIdxIfInBounds before.size t = before ++ (#[t] ++ after) := by
  have hlist : ∀ xs ys : List Token, (xs ++ ys).insertIdx xs.length t = xs ++ t :: ys := by
    intro xs ys
    induction xs with
    | nil => rfl
    | cons x xs ih => simp [ih]
  rw [Array.insertIdxIfInBounds, dif_pos (by simp)]
  apply Array.toList_inj.mp
  rw [Array.toList_insertIdx, Array.toList_append, ← Array.length_toList, hlist]
  simp

variable {key word rest : List Char} {tokens : Array Token} {indent : Int} {outer : List Int}
  {c : Cursor}

private theorem isMarker_key (hkey : IsWord key) {mark : Char} (hmark : mark ≠ ':')
    (rest : List Char) :
    isMarker mark (key ++ ':' :: rest) = false := by
  have hcolon : (':' == mark) = false := beq_eq_false_iff_ne.mpr hmark.symm
  match key, hkey with
  | [], h => exact absurd rfl h.ne_nil
  | [a], _ =>
    cases rest with
    | nil => rfl
    | cons x rest => simp [isMarker, hcolon]
  | [a, b], _ => simp [isMarker, hcolon]
  | [a, b, c], _ => simp [isMarker, show endsWord (':' :: rest) = false from rfl]
  | a :: b :: c :: d :: more, h =>
    have hspace := isSpace_of_isWordChar (h.isWordChar d (by simp))
    simp [isMarker, endsWord, hspace]

private theorem atDocumentMarker_key (hkey : IsWord key) (hc : c.rest = key ++ ':' :: rest) :
    c.atDocumentMarker = false := by
  rw [Cursor.atDocumentMarker, hc, isMarker_key hkey (by decide), isMarker_key hkey (by decide)]
  simp

/-- The state at the beginning of a line, between two pairs. -/
def atLine (tokens : Array Token) (indent : Int) (outer : List Int) (c : Cursor) : Scan :=
  { cursor := c, tokens := tokens, indent := indent, outer := outer }

/-- The state behind the key that began at a cursor. -/
def behindKey (key : List Char) (tokens : Array Token) (indent : Int) (outer : List Int)
    (c : Cursor) (rest : List Char) : Scan :=
  { cursor := c.advance key rest
    tokens := tokens ++ #[.scalar .plain key]
    indent := indent
    outer := outer
    pending := [some ⟨indent == c.column, tokens.size, c⟩]
    keyAllowed := false }

private theorem plain_key (hkey : IsWord key) (hc : c.rest = key ++ ':' :: ' ' :: rest) :
    (atLine tokens indent outer c).plain =
      some (behindKey key tokens indent outer c (':' :: ' ' :: rest)) := by
  have hscalar : plainScalar false indent c =
      some (key, c.advance key (':' :: ' ' :: rest), false) :=
    plainScalar_colon hkey hc (atDocumentMarker_key hkey hc)
  simp [plain, noteKey, dropKey, inFlow, pushAt, atLine, behindKey, hscalar]

/-- The state behind a colon. -/
def behindColon (tokens : Array Token) (indent : Int) (outer : List Int) (c : Cursor) : Scan :=
  { cursor := c, tokens := tokens, indent := indent, outer := outer, keyAllowed := false }

private theorem freshKey_behindKey (hkey : IsWord key) (hlength : key.length ≤ 1024) :
    (behindKey key tokens indent outer c rest).freshKey =
      some (some ⟨indent == c.column, tokens.size, c⟩) := by
  have hoffset := Cursor.offset_advance hkey.isWordChar c rest
  have hnear : ¬ (c.line < c.line ∨ c.offset + 1024 < (c.advance key rest).offset) := by omega
  exact if_neg hnear

private theorem value_first (hkey : IsWord key) (hlength : key.length ≤ 1024)
    (hindent : indent < c.column) :
    (behindKey key tokens indent outer c rest).value =
      some (behindColon (tokens ++ #[.blockMappingStart, .key, .scalar .plain key, .value])
        c.column (indent :: outer) ((c.advance key rest).drop 1)) := by
  -- the mark of the key goes in before its scalar, that of the mapping before the mark
  have hmark := insertIdxIfInBounds_size tokens #[.scalar .plain key] .key
  have hopen := insertIdxIfInBounds_size tokens (#[.key] ++ #[.scalar .plain key])
    .blockMappingStart
  rw [value, freshKey_behindKey hkey hlength]
  simp only [Option.bind_eq_bind, Option.bind_some, behindKey, behindColon, openBlock, pushAt,
    inFlow, List.tail_cons, List.isEmpty_nil, Bool.not_true, Bool.not_false, Bool.true_and, hindent,
    decide_true, if_true, hmark, hopen]
  simp

private theorem value_next (hkey : IsWord key) (hlength : key.length ≤ 1024)
    (hindent : indent = c.column) :
    (behindKey key tokens indent outer c rest).value =
      some (behindColon (tokens ++ #[.key, .scalar .plain key, .value]) indent outer
        ((c.advance key rest).drop 1)) := by
  have hmark := insertIdxIfInBounds_size tokens #[.scalar .plain key] .key
  rw [value, freshKey_behindKey hkey hlength]
  simp only [Option.bind_eq_bind, Option.bind_some, behindKey, behindColon, openBlock, pushAt,
    inFlow, List.tail_cons, List.isEmpty_nil, Bool.not_true, Bool.not_false, Bool.true_and, hindent,
    Int.lt_irrefl, decide_false, Bool.false_eq_true, if_false, hmark]
  simp

private theorem plain_value (hword : IsWord word) (hc : c.rest = word ++ '\n' :: rest)
    (hcolumn : c.column ≠ 0) (hindent : 0 ≤ indent) (hrest : Begins rest) :
    (behindColon tokens indent outer c).plain =
      some (atLine (tokens ++ #[.scalar .plain word]) indent outer
        (c.advance word ('\n' :: rest)).next) := by
  have hmarker := Cursor.atDocumentMarker_of_column hcolumn
  have hnext : (c.advance word ('\n' :: rest)).next.startsWith isSpace = false := by
    cases rest with
    | nil => rfl
    | cons x rest => exact (hrest x rfl).1
  have hscalar := plainScalar_lineFeed hword hc hmarker hindent hnext
  simp [plain, noteKey, inFlow, pushAt, behindColon, atLine, hscalar]

end Scan

/-! ## Lines -/

/-- A pair of plain words on a line of its own. -/
structure Line where
  key : List Char
  word : List Char

namespace Line

/-- The words are plain, and the key is not too long for one without a mark. -/
structure Written (l : Line) : Prop where
  key : IsWord l.key
  length_key : l.key.length ≤ 1024
  word : IsWord l.word

/-- The text of a line before a text. -/
def chars (l : Line) (more : List Char) : List Char :=
  l.key ++ ':' :: ' ' :: (l.word ++ '\n' :: more)

/-- The tokens of a line. -/
def tokens (l : Line) : List Token :=
  [.key, .scalar .plain l.key, .value, .scalar .plain l.word]

end Line

/-- A word begins a token. -/
theorem IsWord.begins {word : List Char} (h : IsWord word) (rest : List Char) :
    Scan.Begins (word ++ rest) := by
  obtain ⟨first, others, rfl⟩ := List.exists_cons_of_ne_nil h.ne_nil
  have hfirst := h.isWordChar first List.mem_cons_self
  rintro x ⟨⟩
  exact ⟨isSpace_of_isWordChar hfirst, ne_of_isWordChar hfirst (by decide),
    ne_of_isWordChar hfirst (by decide)⟩

namespace Scan

variable {s s' : Scan} {l : Line} {key word more rest : List Char} {tokens : Array Token}
  {indent : Int} {outer : List Int} {c : Cursor}

private theorem run_word (passed : List Char) (hword : IsWord word)
    (hc : s.cursor.rest = passed ++ (word ++ rest)) (hpassed : ∀ x ∈ passed, x = ' ')
    (hindent : s.indent ≤ s.cursor.column)
    (hmarker : (s.cursor.advance passed (word ++ rest)).atDocumentMarker = false)
    (hplain : { s with cursor := s.cursor.advance passed (word ++ rest) }.plain = some s')
    (fuel : Nat) : run (fuel + 1) s = run fuel s' := by
  have hbegins := hword.begins rest
  obtain ⟨first, others, rfl⟩ := List.exists_cons_of_ne_nil hword.ne_nil
  have hhyphen : first = '-' → endsWord (others ++ rest) = false := by
    rintro rfl
    obtain ⟨d, ds, rfl⟩ := List.exists_cons_of_ne_nil fun hnil ↦ hword.ne_hyphen (hnil ▸ rfl)
    exact isSpace_of_isWordChar (hword.isWordChar d (by simp))
  apply run_succ passed hc hpassed hbegins hindent
  exact (token_word (hword.isWordChar first List.mem_cons_self) hhyphen hmarker).trans hplain

private theorem run_key (hkey : IsWord key) (hc : c.rest = key ++ ':' :: ' ' :: rest)
    (hindent : indent ≤ c.column) (fuel : Nat) :
    run (fuel + 1) (atLine tokens indent outer c) =
      run fuel (behindKey key tokens indent outer c (':' :: ' ' :: rest)) := by
  apply run_word [] hkey hc (by simp) hindent
  · exact atDocumentMarker_key hkey rfl
  · simp only [atLine, Cursor.advance_nil hc]
    exact plain_key hkey hc

private theorem run_colon (hkey : IsWord key) (hindent : indent ≤ c.column)
    (hvalue : (behindKey key tokens indent outer c (':' :: ' ' :: rest)).value = some s')
    (fuel : Nat) :
    run (fuel + 1) (behindKey key tokens indent outer c (':' :: ' ' :: rest)) = run fuel s' := by
  have hcolumn : (c.advance key (':' :: ' ' :: rest)).column ≠ 0 := by
    have hpos := List.length_pos_iff.mpr hkey.ne_nil
    exact Nat.ne_of_gt (Nat.lt_of_lt_of_le hpos (Nat.le_add_left ..))
  have hbegins : Begins (':' :: ' ' :: rest) := by
    rintro x ⟨⟩
    decide
  apply run_succ [] rfl (by simp) hbegins
  · exact Int.le_trans hindent (Int.ofNat_le.mpr (Nat.le_add_right ..))
  · exact (token_colon (Cursor.atDocumentMarker_of_column hcolumn) rest).trans hvalue

private theorem run_value (hword : IsWord word) (hc : c.rest = ' ' :: (word ++ '\n' :: more))
    (hindent : 0 ≤ indent) (hcolumn : indent ≤ c.column) (hmore : Begins more)
    (tokens : Array Token) (outer : List Int) :
    ∃ c' : Cursor, c'.rest = more ∧ c'.column = 0 ∧ ∀ fuel,
      run (fuel + 1) (behindColon tokens indent outer c) =
        run fuel (atLine (tokens ++ #[.scalar .plain word]) indent outer c') := by
  have hspace : (c.advance [' '] (word ++ '\n' :: more)).column ≠ 0 := Nat.succ_ne_zero c.column
  refine ⟨((c.advance [' '] (word ++ '\n' :: more)).advance word ('\n' :: more)).next, rfl, rfl,
    fun fuel ↦ ?_⟩
  apply run_word [' '] hword hc (by simp) hcolumn
  · exact Cursor.atDocumentMarker_of_column hspace
  · exact plain_value hword rfl hspace hindent hmore

private theorem run_line (hl : l.Written) (hc : c.rest = l.chars more) (hcolumn : c.column = 0)
    (hmore : Begins more) (hindent : indent ≤ 0) {behind : Array Token} {outer' : List Int}
    (hvalue : ∀ rest, (behindKey l.key tokens indent outer c rest).value =
      some (behindColon behind 0 outer' ((c.advance l.key rest).drop 1))) :
    ∃ c' : Cursor, c'.rest = more ∧ c'.column = 0 ∧ ∀ fuel,
      run (fuel + 3) (atLine tokens indent outer c) =
        run fuel (atLine (behind ++ #[.scalar .plain l.word]) 0 outer' c') := by
  have hle : indent ≤ c.column := by omega
  obtain ⟨c', hrest', hcolumn', hrun⟩ := run_value
    (c := (c.advance l.key (':' :: ' ' :: (l.word ++ '\n' :: more))).drop 1) hl.word rfl
    (Int.le_refl 0) (Int.natCast_nonneg _) hmore behind outer'
  refine ⟨c', hrest', hcolumn', fun fuel ↦ ?_⟩
  rw [run_key hl.key hc hle, run_colon hl.key hle (hvalue _), hrun]

private theorem run_first (hl : l.Written) (hc : c.rest = l.chars more) (hcolumn : c.column = 0)
    (hmore : Begins more) :
    ∃ c' : Cursor, c'.rest = more ∧ c'.column = 0 ∧ ∀ fuel,
      run (fuel + 3) (atLine #[] (-1) [] c) =
        run fuel (atLine (#[Token.blockMappingStart] ++ l.tokens) 0 [-1] c') := by
  have hvalue : ∀ rest, (behindKey l.key #[] (-1) [] c rest).value =
      some (behindColon #[.blockMappingStart, .key, .scalar .plain l.key, .value] 0 [-1]
        ((c.advance l.key rest).drop 1)) := by
    intro rest
    rw [value_first hl.key hl.length_key (by omega), hcolumn]
    rfl
  obtain ⟨c', hrest', hcolumn', hrun⟩ := run_line hl hc hcolumn hmore (by decide) hvalue
  refine ⟨c', hrest', hcolumn', fun fuel ↦ (hrun fuel).trans ?_⟩
  simp [Line.tokens]

private theorem run_next (hl : l.Written) (hc : c.rest = l.chars more) (hcolumn : c.column = 0)
    (hmore : Begins more) (tokens : Array Token) (outer : List Int) :
    ∃ c' : Cursor, c'.rest = more ∧ c'.column = 0 ∧ ∀ fuel,
      run (fuel + 3) (atLine tokens 0 outer c) =
        run fuel (atLine (tokens ++ l.tokens) 0 outer c') := by
  have hvalue : ∀ rest, (behindKey l.key tokens 0 outer c rest).value =
      some (behindColon (tokens ++ #[.key, .scalar .plain l.key, .value]) 0 outer
        ((c.advance l.key rest).drop 1)) :=
    fun rest ↦ value_next hl.key hl.length_key (by omega)
  obtain ⟨c', hrest', hcolumn', hrun⟩ := run_line hl hc hcolumn hmore (Int.le_refl 0) hvalue
  have htokens : tokens ++ #[.key, .scalar .plain l.key, .value] ++ #[.scalar .plain l.word] =
      tokens ++ l.tokens := by
    apply Array.toList_inj.mp
    simp [Line.tokens]
  rw [htokens] at hrun
  exact ⟨c', hrest', hcolumn', hrun⟩

private theorem run_end (hc : c.rest = []) (fuel : Nat) (hindent : indent ≤ c.column) :
    run fuel (atLine tokens indent outer c) = (atLine tokens indent outer c).finish := by
  have hskip : (atLine tokens indent outer c).skipSpace = atLine tokens indent outer c := by
    rw [skipSpace_eq [] hc (by simp) (by simp [Begins])]
    simp only [atLine, Cursor.advance_nil hc]
  have hclose : (atLine tokens indent outer c).closeBlocks
      (atLine tokens indent outer c).cursor.column = atLine tokens indent outer c :=
    closeBlocks_eq hindent
  have hrest : (atLine tokens indent outer c).cursor.rest = [] := hc
  rw [run.eq_def]
  simp only [hskip, hclose, hrest]

private theorem finish_atLine (tokens : Array Token) (c : Cursor) :
    (atLine tokens 0 [-1] c).finish = some (tokens.push .blockEnd) := by
  simp [finish, closeBlocks, inFlow, atLine, closeColumns, dropKey]

private theorem begins_lines {lines : List Line} (h : ∀ l ∈ lines, l.Written) :
    Begins (lines.foldr Line.chars []) := by
  cases lines with
  | nil => simp [Begins]
  | cons l lines => exact (h l List.mem_cons_self).key.begins _

/-- Other lines are read to the end of the text. -/
theorem run_lines {lines : List Line} (h : ∀ l ∈ lines, l.Written)
    (hc : c.rest = lines.foldr Line.chars []) (hcolumn : c.column = 0) (tokens : Array Token)
    (fuel : Nat) :
    run (fuel + 3 * lines.length) (atLine tokens 0 [-1] c) =
      some ((tokens ++ lines.flatMap Line.tokens).push .blockEnd) := by
  -- every line leaves the scanner where it found it: in the first column, between two pairs
  induction lines generalizing c tokens with
  | nil =>
    rw [run_end hc _ (by omega), finish_atLine]
    simp
  | cons l lines ih =>
    have hmore := fun l' hl' ↦ h l' (List.mem_cons_of_mem l hl')
    obtain ⟨c', hrest', hcolumn', hrun⟩ :=
      run_next (h l List.mem_cons_self) hc hcolumn (begins_lines hmore) tokens [-1]
    have htokens : tokens ++ l.tokens ++ lines.flatMap Line.tokens =
        tokens ++ (l :: lines).flatMap Line.tokens := by
      apply Array.toList_inj.mp
      simp
    rw [List.length_cons, Nat.mul_add, ← Nat.add_assoc, hrun, ih hmore hrest' hcolumn', htokens]

end Scan

/-! ## Documents -/

namespace Line

private theorem all_isPrintable_chars {l : Line} (hl : l.Written) {more : List Char}
    (hmore : more.all isPrintable = true) : (l.chars more).all isPrintable = true := by
  have hkey : l.key.all isPrintable = true :=
    List.all_eq_true.mpr fun c hc ↦ isPrintable_of_isWordChar (hl.key.isWordChar c hc)
  have hword : l.word.all isPrintable = true :=
    List.all_eq_true.mpr fun c hc ↦ isPrintable_of_isWordChar (hl.word.isWordChar c hc)
  have hmarks : isPrintable ':' = true ∧ isPrintable ' ' = true ∧ isPrintable '\n' = true := by
    decide
  simp [chars, hkey, hword, hmarks, hmore]

variable {lines : List Line}

private theorem all_isPrintable_lines (h : ∀ l ∈ lines, l.Written) :
    (lines.foldr chars []).all isPrintable = true := by
  induction lines with
  | nil => rfl
  | cons l lines ih =>
    exact all_isPrintable_chars (h l List.mem_cons_self)
      (ih fun l' hl' ↦ h l' (List.mem_cons_of_mem l hl'))

private theorem length_lines (lines : List Line) :
    3 * lines.length ≤ (lines.foldr chars []).length := by
  induction lines with
  | nil => exact Nat.le_refl 0
  | cons l lines ih =>
    simp only [List.foldr_cons, chars, List.length_append, List.length_cons]
    omega

private theorem length_tokens_lines (lines : List Line) :
    lines.length ≤ (lines.flatMap tokens).length := by
  induction lines with
  | nil => exact Nat.le_refl 0
  | cons l lines ih =>
    simp only [List.flatMap_cons, tokens, List.length_append, List.length_cons]
    omega

end Line

/-- The tokens of a mapping of some lines, if there are any. -/
def mappingTokens : List Line → List Token
  | [] => []
  | l :: lines => .blockMappingStart :: ((l :: lines).flatMap Line.tokens ++ [.blockEnd])

/-- Lines are read as the tokens of a mapping. -/
theorem tokens?_lines {lines : List Line} (h : ∀ l ∈ lines, l.Written) :
    tokens? (lines.foldr Line.chars []) = some (mappingTokens lines) := by
  rw [tokens?, if_pos (Line.all_isPrintable_lines h)]
  show Array.toList <$> Scan.run ((lines.foldr Line.chars []).length + 1)
    (Scan.atLine #[] (-1) [] { rest := lines.foldr Line.chars [] }) = _
  cases lines with
  | nil =>
    rw [Scan.run_end rfl _ (by decide)]
    rfl
  | cons l lines =>
    have hmore := fun l' hl' ↦ h l' (List.mem_cons_of_mem l hl')
    obtain ⟨c, hrest, hcolumn, hrun⟩ := Scan.run_first
      (c := { rest := (l :: lines).foldr Line.chars [] }) (h l List.mem_cons_self) rfl rfl
      (Scan.begins_lines hmore)
    -- a line takes three steps and has three characters at least, so there are steps enough
    obtain ⟨fuel, hfuel⟩ := Nat.exists_eq_add_of_le (Line.length_lines (l :: lines))
    have hsteps : ((l :: lines).foldr Line.chars []).length + 1 =
        fuel + 1 + 3 * lines.length + 3 := by
      rw [hfuel, List.length_cons]
      omega
    rw [hsteps, hrun, Scan.run_lines hmore hrest hcolumn]
    simp [mappingTokens]

namespace Node

/-- The node of a plain word. -/
def ofWord (word : List Char) : Node := .scalar ⟨.plain, none, word⟩

private theorem orEmpty_scalar (handles : Handles) (fuel : Nat) (place : Place) (anchors : Anchors)
    (word : List Char) (rest : List Token) :
    orEmpty handles (fuel + 2) place afterBlockPlace anchors (.scalar .plain word :: rest) =
      some (ofWord word, anchors, rest) := by
  rfl

private theorem ofTokens_blockMapping (handles : Handles) (fuel : Nat) (anchors : Anchors)
    (rest : List Token) :
    ofTokens handles (fuel + 1) .block anchors (.blockMappingStart :: rest) =
      (blockPairs handles fuel anchors rest).bind fun (pairs, state) ↦
        some (.mapping pairs, state) := by
  rfl

/-- The lines of a mapping are read as its pairs. -/
theorem blockPairs_lines (handles : Handles) (anchors : Anchors) (lines : List Line) (fuel : Nat) :
    blockPairs handles (fuel + lines.length + 2) anchors
        (lines.flatMap Line.tokens ++ [.blockEnd]) =
      some (lines.map fun l ↦ (ofWord l.key, ofWord l.word), anchors, []) := by
  induction lines with
  | nil => rfl
  | cons l lines ih =>
    have hscalar := orEmpty_scalar handles (fuel + lines.length) .blockValue anchors
    simp only [List.flatMap_cons, Line.tokens, List.cons_append, List.nil_append, List.length_cons,
      ← Nat.add_assoc, Nat.add_right_comm _ 1 2, blockPairs, hscalar, Option.bind_eq_bind,
      Option.bind_some, ih]
    rfl

end Node

namespace Tree

/-- A text of lines is a mapping of the words on them. -/
theorem parse?_lines {lines : List Line} (h : ∀ l ∈ lines, l.Written) (hne : lines ≠ []) :
    parse? (lines.foldr Line.chars []) =
      some ⟨.mapping (lines.map fun l ↦ (Node.ofWord l.key, Node.ofWord l.word)), []⟩ := by
  obtain ⟨l, others, rfl⟩ := List.exists_cons_of_ne_nil hne
  have hlength : (l :: others).length ≤ (mappingTokens (l :: others)).length := by
    have htokens := Line.length_tokens_lines (l :: others)
    simp only [mappingTokens, List.length_cons, List.length_append] at htokens ⊢
    omega
  obtain ⟨fuel, hfuel⟩ := Nat.exists_eq_add_of_le hlength
  have hsteps : 3 * (mappingTokens (l :: others)).length + 3 =
      2 * (l :: others).length + 3 * fuel + (l :: others).length + 2 + 1 := by omega
  have hroot : Node.ofTokens Handles.standard (3 * (mappingTokens (l :: others)).length + 3)
      .block {} (mappingTokens (l :: others)) =
        some (.mapping ((l :: others).map fun l ↦ (Node.ofWord l.key, Node.ofWord l.word)), {},
          []) := by
    rw [hsteps, mappingTokens, Node.ofTokens_blockMapping, Node.blockPairs_lines]
    rfl
  have hdocument : ofTokens? (mappingTokens (l :: others)) =
      (ofContent? Handles.standard (mappingTokens (l :: others))) := rfl
  rw [parse?, tokens?_lines h, Option.bind_eq_bind, Option.bind_some, hdocument, ofContent?, hroot]
  rfl

/-- A text without lines is an empty document. -/
theorem parse?_nil : parse? [] = some empty := by
  have hlines : ∀ l ∈ ([] : List Line), l.Written := by simp
  have htokens : tokens? [] = some [] := tokens?_lines hlines
  rw [parse?, htokens]
  rfl

end Tree

end IndexedCodebook.Yaml
