import IndexedCodebook.Json.Value
import IndexedCodebook.Proofs.Decimal.Digits

/-!
# Reading a JSON object that was written

`Spells` says that a text is some tokens, one right after the other; such a text is read as them. An
object without blanks whose names need no escapes, and whose values are one token each, is read as
its fields in order (`Value.parse?_object`).
-/

namespace IndexedCodebook.Json

/-- Some tokens are a text, without blanks between them. -/
inductive Spells : List Token → List Char → Prop
  | nil : Spells [] []
  | cons {t : Token} {tokens : List Token} {c : Char} {word rest : List Char}
      (hblank : isBlank c = false) (htoken : token? (c :: (word ++ rest)) = some (t, rest))
      (hrest : Spells tokens rest) : Spells (t :: tokens) (c :: (word ++ rest))

/-- A text is read as the tokens that it is. -/
theorem Spells.tokensWithin {tokens : List Token} {text : List Char} (h : Spells tokens text)
    {fuel : Nat} (hfuel : text.length ≤ fuel) : tokensWithin fuel text = some tokens := by
  induction h generalizing fuel with
  | nil => cases fuel <;> rfl
  | @cons t tokens c word rest hblank htoken hrest ih =>
    -- a token takes one step, and has a character at least
    simp only [List.length_cons, List.length_append] at hfuel
    obtain ⟨fuel, rfl⟩ := Nat.exists_eq_add_one_of_ne_zero (Nat.ne_zero_of_lt hfuel)
    have hmore : Json.tokensWithin fuel rest = some tokens := ih (by omega)
    simp only [Json.tokensWithin, List.dropWhile_cons, hblank, Bool.false_eq_true, if_false, htoken,
      Option.bind_eq_bind, Option.bind_some, hmore]
    rfl

/-- A text is read as the tokens that it is. -/
theorem Spells.tokens? {tokens : List Token} {text : List Char} (h : Spells tokens text) :
    tokens? text = some tokens :=
  h.tokensWithin (Nat.le_refl _)

/-! ## Names -/

/-- Characters that stand for themselves in a string. -/
def isPlain (c : Char) : Bool := c != '"' && c != '\\' && decide (0x20 ≤ c.toNat)

private theorem stringUnits_plain {text : List Char} (h : text.all isPlain = true)
    (rest : List Char) :
    stringUnits (text ++ '"' :: rest) = some (text.map .inr, rest) := by
  induction text with
  | nil => rfl
  | cons c text ih =>
    rw [List.all_cons, Bool.and_eq_true] at h
    have hmore := ih h.2
    obtain ⟨⟨hquote, hescape⟩, hcontrol⟩ : (c ≠ '"' ∧ c ≠ '\\') ∧ 0x20 ≤ c.toNat := by
      simpa [isPlain] using h.1
    rw [List.cons_append, stringUnits]
    · simp [hmore, hescape, Nat.not_lt.mpr hcontrol]
    · exact hquote
    · exact fun _ _ _ _ _ heq _ ↦ hescape heq
    · exact fun _ _ heq _ ↦ hescape heq

private theorem characters?_inr (text : List Char) : characters? (text.map .inr) = some text := by
  induction text with
  | nil => rfl
  | cons c text ih =>
    rw [List.map_cons, characters?, ih]
    rfl

/-- A string of characters that stand for themselves is one token. -/
theorem token?_string {text : List Char} (h : text.all isPlain = true) (rest : List Char) :
    token? ('"' :: (text ++ '"' :: rest)) = some (.string (some text), rest) := by
  rw [token?, stringUnits_plain h]
  simp [characters?_inr]

/-! ## Values -/

/-- A text goes on after a value: with a comma or a closing brace. -/
inductive EndsValue : List Char → Prop
  | comma (rest : List Char) : EndsValue (',' :: rest)
  | brace (rest : List Char) : EndsValue ('}' :: rest)

/-- A text is one token, which is one value, wherever a value may end. -/
structure Writes (text : List Char) (t : Token) (v : Value) : Prop where
  begins : ∃ c word, text = c :: word ∧ isBlank c = false
  token : ∀ rest, EndsValue rest → token? (text ++ rest) = some (t, rest)
  value : ∀ fuel rest, Value.ofTokens (fuel + 1) (t :: rest) = some (v, rest)

/-- The number that is written with some digits alone. -/
def Number.ofWhole (digits : List Char) : Number := ⟨false, digits, none, none⟩

/-- A token that begins with a digit is a number without a sign. -/
theorem token?_of_isDigit {c : Char} (h : c.isDigit = true) (rest : List Char) :
    token? (c :: rest) =
      (number? false (c :: rest)).bind fun (n, rest) ↦ some (.number n, rest) := by
  unfold token?
  split <;> first | rfl | simp_all

/-- Digits before a text that does not begin with one are all of the digits. -/
theorem digits?_append {digits rest : List Char} (hne : digits ≠ [])
    (h : ∀ c ∈ digits, c.isDigit = true) (hrest : ∀ c ∈ rest.head?, c.isDigit = false) :
    digits? (digits ++ rest) = some (digits, rest) := by
  have hnone : rest.takeWhile Char.isDigit = [] ∧ rest.dropWhile Char.isDigit = rest := by
    cases rest with
    | nil => exact ⟨rfl, rfl⟩
    | cons c rest => simp [hrest c rfl]
  have htake : (digits ++ rest).takeWhile Char.isDigit = digits := by
    rw [List.takeWhile_append_of_pos h, hnone.1, List.append_nil]
  have hdrop : (digits ++ rest).dropWhile Char.isDigit = rest := by
    rw [List.dropWhile_append_of_pos h, hnone.2]
  rw [digits?, htake, hdrop, if_neg (by simpa using hne)]

/-- A zero, or digits that do not begin with one, are a whole number. -/
theorem wholeDigits?_append {digits rest : List Char}
    (h : digits = ['0'] ∨ ∃ d ds, digits = d :: ds ∧ d ≠ '0' ∧ ∀ c ∈ d :: ds, c.isDigit = true)
    (hrest : ∀ c ∈ rest.head?, c.isDigit = false) :
    wholeDigits? (digits ++ rest) = some (digits, rest) := by
  rcases h with rfl | ⟨d, ds, rfl, hne, hdigits⟩
  · cases rest with
    | nil => rfl
    | cons c rest => simp [wholeDigits?, hrest c rfl]
  · rw [List.cons_append, wholeDigits?]
    · exact digits?_append (List.cons_ne_nil d ds) hdigits hrest
    · exact fun _ heq ↦ hne (List.cons.inj heq).1

/-- A digit is no blank. -/
theorem isBlank_of_isDigit {c : Char} (h : c.isDigit = true) : isBlank c = false := by
  rw [← Bool.not_eq_true]
  intro hblank
  simp only [isBlank, Bool.or_eq_true, beq_iff_eq] at hblank
  rcases hblank with ((rfl | rfl) | rfl) | rfl <;> cases h

/-- Nothing is written by a word. -/
theorem writes_null : Writes ['n', 'u', 'l', 'l'] .null .null := by
  constructor
  · exact ⟨'n', _, rfl, rfl⟩
  · exact fun _ _ ↦ rfl
  · exact fun _ _ ↦ rfl

/-! ## Objects -/

/-- A field of an object that is written: its name, and the text, the token and the value of its
value. -/
structure Field where
  name : List Char
  text : List Char
  token : Token
  value : Value

namespace Field

/-- The name needs no escapes, and the value is one token. -/
structure Written (f : Field) : Prop where
  name : f.name.all isPlain = true
  value : Writes f.text f.token f.value

/-- The text of a field. -/
def chars (f : Field) : List Char := '"' :: (f.name ++ '"' :: ':' :: f.text)

/-- Fields without blanks, and the closing brace. -/
def allChars : List Field → List Char
  | [] => ['}']
  | [f] => f.chars ++ ['}']
  | f :: g :: more => f.chars ++ ',' :: allChars (g :: more)

/-- The tokens of fields and of the closing brace. -/
def allTokens : List Field → List Token
  | [] => [.closeBrace]
  | [f] => [.string (some f.name), .colon, f.token, .closeBrace]
  | f :: g :: more => .string (some f.name) :: .colon :: f.token :: .comma :: allTokens (g :: more)

private theorem allChars_eq (fields : List Field) :
    allChars fields = [','].intercalate (fields.map chars) ++ ['}'] := by
  fun_induction allChars fields with
  | case1 => rfl
  | case2 f => simp [List.intercalate]
  | case3 f g more ih => simp_all [List.intercalate]

private theorem spells_chars {f : Field} (h : f.Written) {tokens : List Token} {rest : List Char}
    (hends : EndsValue rest) (hrest : Spells tokens rest) :
    Spells (.string (some f.name) :: .colon :: f.token :: tokens) (f.chars ++ rest) := by
  obtain ⟨c, word, htext, hblank⟩ := h.value.begins
  have hvalue : Spells (f.token :: tokens) (f.text ++ rest) := by
    have htoken := h.value.token rest hends
    rw [htext, List.cons_append] at htoken ⊢
    exact .cons hblank htoken hrest
  have hcolon : Spells (.colon :: f.token :: tokens) (':' :: ([] ++ (f.text ++ rest))) :=
    .cons rfl rfl hvalue
  have hname : token? ('"' :: (f.name ++ ['"'] ++ ':' :: (f.text ++ rest))) =
      some (.string (some f.name), ':' :: (f.text ++ rest)) := by
    rw [List.append_assoc]
    exact token?_string h.name _
  have hfield := Spells.cons rfl hname hcolon
  simpa [chars] using hfield

private theorem spells_allChars {fields : List Field} (h : ∀ f ∈ fields, f.Written) :
    Spells (allTokens fields) (allChars fields) := by
  have hbrace : Spells [.closeBrace] ('}' :: ([] ++ [])) := .cons rfl rfl .nil
  fun_induction allChars fields with
  | case1 => exact hbrace
  | case2 f => exact spells_chars (h f List.mem_cons_self) (.brace []) hbrace
  | case3 f g more ih =>
    have hmore := ih fun f' hf' ↦ h f' (List.mem_cons_of_mem f hf')
    have hcomma : Spells (.comma :: allTokens (g :: more)) (',' :: ([] ++ allChars (g :: more))) :=
      .cons rfl rfl hmore
    exact spells_chars (h f List.mem_cons_self) (.comma _) hcomma

/-- The tokens of fields are read as their names and values. -/
theorem fieldsOfTokens_allTokens {fields : List Field} (hne : fields ≠ [])
    (h : ∀ f ∈ fields, f.Written) (fuel : Nat) :
    Value.fieldsOfTokens (fuel + fields.length + 1) (allTokens fields) =
      some (fields.map fun f ↦ (some f.name, f.value), []) := by
  fun_induction allTokens fields with
  | case1 => exact absurd rfl hne
  | case2 f =>
    have hvalue := (h f List.mem_cons_self).value.value fuel [.closeBrace]
    simp [Value.fieldsOfTokens, hvalue]
  | case3 f g more ih =>
    have hvalue := (h f List.mem_cons_self).value.value (fuel + (g :: more).length)
      (.comma :: allTokens (g :: more))
    have hmore := ih (List.cons_ne_nil g more) fun f' hf' ↦ h f' (List.mem_cons_of_mem f hf')
    rw [List.length_cons, ← Nat.add_assoc]
    simp only [Value.fieldsOfTokens, hvalue, hmore, Option.bind_eq_bind, Option.bind_some]
    rfl

private theorem length_allTokens (fields : List Field) :
    fields.length ≤ (allTokens fields).length := by
  fun_induction allTokens fields with
  | case1 => simp
  | case2 f => simp
  | case3 f g more ih =>
    simp only [List.length_cons] at ih ⊢
    omega

private theorem head?_allTokens {fields : List Field} (hne : fields ≠ []) :
    (allTokens fields).head? ≠ some .closeBrace := by
  fun_cases allTokens fields with
  | case1 => exact absurd rfl hne
  | case2 f => simp
  | case3 f g more => simp

end Field

private theorem Value.ofTokens_openBrace {tokens : List Token} (h : tokens.head? ≠ some .closeBrace)
    (fuel : Nat) :
    ofTokens (fuel + 1) (.openBrace :: tokens) =
      (fieldsOfTokens fuel tokens).bind fun (fields, rest) ↦ some (.object fields, rest) := by
  rw [ofTokens]
  · rfl
  · rintro rest rfl
    exact h rfl

/-- A written object is read as its fields. -/
theorem Value.parse?_object {fields : List Field} (h : ∀ f ∈ fields, f.Written) :
    parse? ('{' :: ([','].intercalate (fields.map Field.chars) ++ ['}'])) =
      some (.object (fields.map fun f ↦ (some f.name, f.value))) := by
  have htokens : tokens? ('{' :: ([] ++ Field.allChars fields)) =
      some (.openBrace :: Field.allTokens fields) :=
    (Spells.cons rfl rfl (Field.spells_allChars h)).tokens?
  rw [← Field.allChars_eq, parse?]
  -- the parser looks for a closing brace before it reads fields
  by_cases hne : fields = []
  · subst hne
    rfl
  · obtain ⟨fuel, hfuel⟩ := Nat.exists_eq_add_of_le (Field.length_allTokens fields)
    have hsteps : 2 * (Token.openBrace :: Field.allTokens fields).length + 1 =
        fields.length + 2 * fuel + 1 + fields.length + 1 + 1 := by
      rw [List.length_cons, hfuel]
      omega
    have hvalue := ofTokens_openBrace (Field.head?_allTokens hne)
      (fields.length + 2 * fuel + 1 + fields.length + 1)
    rw [Field.fieldsOfTokens_allTokens hne h] at hvalue
    simp only [List.nil_append] at htokens
    rw [htokens, Option.bind_eq_bind, Option.bind_some, hsteps, hvalue]
    rfl

end IndexedCodebook.Json
