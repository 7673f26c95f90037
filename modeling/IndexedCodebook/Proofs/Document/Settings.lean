import IndexedCodebook.Document.Load
import IndexedCodebook.Proofs.Document.Reals

/-!
# Documents of validation settings

What is read from the text of validation settings: `written_tolerance_read_back`. JSON gives the
settings back if the tolerance is finite, and refuses the text otherwise. YAML gives them back but
for the payload of a NaN and for one magnitude, which becomes the next one.
-/

namespace IndexedCodebook.Document

namespace Json

private theorem text_real {x : Single} (hx : x.isFinite) :
    ((Value.real x).text realStyle).toList = (realNumber x).chars ['+'] := by
  have htext : (Value.real x).text realStyle = String.ofList (realStyle.finiteText x) := by
    simp [Value.text, RealStyle.text, Word.isNaN_of_isFinite hx, hx]
  rw [htext, String.toList_ofList]
  exact finiteText_eq x ['+'] "null" "null" "null"

private theorem text_real_of_not_isFinite {x : Single} (hx : ¬ x.isFinite) :
    (Value.real x).text realStyle = Value.null.text realStyle := by
  simp only [Value.text, RealStyle.text, if_neg hx]
  split
  · rfl
  · split <;> rfl

private theorem writes_real {name : String} (hname : name.toList.all Json.isPlain = true)
    {x : Single}
    (hx : x.isFinite) : ∃ field : Json.Field, field.Written ∧ Writes (name, .real x) field :=
  ⟨⟨name.toList, (realNumber x).chars ['+'], _, _⟩,
    ⟨hname, IndexedCodebook.Json.writes_number (spelled_realNumber hx) (.inr rfl)⟩, rfl,
    (text_real hx).symm, Reading.understands_real (toSingle?_realNumber hx)⟩

private theorem read?_write_of_isFinite {s : Validation.Settings} (h : s.tolerance.isFinite) :
    read? Validation.Settings (write s) = some s := by
  refine read?_recordText (fun written hwritten ↦ ?_) rfl
  rcases List.mem_pair.mp hwritten with rfl | rfl
  · exact writes_real (by decide) h
  · exact writes_integer (by decide) s.maxReported

private theorem read?_write_of_not_isFinite {s : Validation.Settings} (h : ¬ s.tolerance.isFinite) :
    read? Validation.Settings (write s) = none := by
  have hnull : write s =
      recordText [("tolerance", .null), ("max_reported", .integer s.maxReported)] := by
    simp only [write, recordText, Settings.record, List.map_cons, text_real_of_not_isFinite h]
  -- a null is understood as nothing, and as no real number
  have htolerance : Writes ("tolerance", .null)
      ⟨"tolerance".toList, ['n', 'u', 'l', 'l'], .null, .null⟩ :=
    ⟨rfl, (text_null _).symm, Reading.understands_null rfl⟩
  have hname : "max_reported".toList.all Json.isPlain = true := by decide
  obtain ⟨reported, hreported, hwrites⟩ := writes_integer hname s.maxReported
  have hfields : ∀ field ∈ [⟨"tolerance".toList, ['n', 'u', 'l', 'l'], .null, .null⟩, reported],
      Json.Field.Written field := by
    refine List.forall_mem_cons.mpr ⟨⟨by decide, IndexedCodebook.Json.writes_null⟩, ?_⟩
    exact List.forall_mem_singleton.mpr hreported
  rw [hnull, read?_recordText_eq hfields (.cons htolerance (.cons hwrites .nil)), readFields]
  split
  · rfl
  · rfl

end Json

namespace Yaml

open IndexedCodebook.Yaml

private theorem text_real {x : Single} (hx : x.isFinite) :
    ((Value.real x).text realStyle).toList = (realNumber x).chars [] := by
  have htext : (Value.real x).text realStyle = String.ofList (realStyle.finiteText x) := by
    simp [Value.text, RealStyle.text, Word.isNaN_of_isFinite hx, hx]
  rw [htext, String.toList_ofList]
  exact finiteText_eq x [] ".nan" ".inf" "-.inf"

private theorem isWord_chars {n : Json.Number} (h : n.Spelled) : IsWord (n.chars []) := by
  have hwhole := all_isWordChar_of_isDigit h.isDigit_whole
  have hfraction : n.fractionChars.all isWordChar = true := by
    rw [Json.Number.fractionChars]
    cases hsome : n.fraction with
    | none => rfl
    | some digits =>
      have hdigits := all_isWordChar_of_isDigit (h.fraction digits hsome).2
      simp [hdigits, isWordChar]
  have hexponent : (n.exponentChars []).all isWordChar = true := by
    rw [Json.Number.exponentChars]
    cases hsome : n.exponent with
    | none => rfl
    | some signed =>
      have hdigits := all_isWordChar_of_isDigit (h.exponent signed.1 signed.2 hsome).2
      cases hnegative : signed.1 <;> simp [hnegative, hdigits, isWordChar, Char.isAlphanum]
  have hunsigned : n.unsignedChars [] ≠ [] := by simp [Json.Number.unsignedChars, h.whole_ne_nil]
  constructor
  · exact List.append_ne_nil_of_right_ne_nil _ hunsigned
  · rw [Json.Number.chars, Json.Number.unsignedChars, List.all_append, List.all_append,
      List.all_append, hwhole, hfraction, hexponent]
    cases n.negative <;> rfl
  · intro heq
    rw [Json.Number.chars] at heq
    cases hnegative : n.negative with
    | true => simp [hnegative, hunsigned] at heq
    | false =>
      -- the first character would be a digit
      obtain ⟨d, ds, hcons⟩ := List.exists_cons_of_ne_nil h.whole_ne_nil
      have hd := h.isDigit_whole d (hcons ▸ List.mem_cons_self)
      simp only [hnegative, Bool.false_eq_true, if_false, List.nil_append,
        Json.Number.unsignedChars, hcons, List.cons_append] at heq
      rw [(List.cons.inj heq).1] at hd
      cases hd

private theorem isWord_real (x : Single) : IsWord ((Value.real x).text realStyle).toList := by
  by_cases hx : x.isFinite
  · rw [text_real hx]
    exact isWord_chars (spelled_realNumber hx)
  · simp only [Value.text, RealStyle.text, if_neg hx]
    split
    · exact ⟨by decide, by decide, by decide⟩
    · split
      · exact ⟨by decide, by decide, by decide⟩
      · exact ⟨by decide, by decide, by decide⟩

private theorem real?_text (x : Single) :
    (Number.real? ((Value.real x).text realStyle).toList).map (·.convert binary32) =
      some (meant x) := by
  by_cases hx : x.isFinite
  · rw [text_real hx]
    exact real?_realNumber hx
  · cases hnan : x.isNaN with
    | true =>
      simp only [Value.text, RealStyle.text, meant, hnan, if_true]
      decide +kernel
    | false =>
      rw [Word.eq_infinite (by simp [hnan]) hx]
      cases x.negative <;> decide +kernel

/-- Settings are read back with the tolerance that is meant. -/
theorem read?_write (s : Validation.Settings) :
    read? Validation.Settings (write s) = some { s with tolerance := meant s.tolerance } := by
  have htolerance : IsWord "tolerance".toList := ⟨by decide, by decide, by decide⟩
  have hlength : "tolerance".toList.length ≤ 1024 := by decide
  have hname : IsWord "max_reported".toList := ⟨by decide, by decide, by decide⟩
  have hreported := writes_integer hname (by decide) s.maxReported
  have hwords : ∀ written ∈ Settings.record s, IsWord written.1.toList ∧
      written.1.toList.length ≤ 1024 ∧ IsWord (written.2.text realStyle).toList := by
    intro written hwritten
    rcases List.mem_pair.mp hwritten with rfl | rfl
    · exact ⟨htolerance, hlength, isWord_real s.tolerance⟩
    · exact ⟨hreported.name, hreported.length_name, hreported.text⟩
  have hmeant : readFields Validation.Settings Value.reading
      [("tolerance", .real (meant s.tolerance)), ("max_reported", .integer s.maxReported)] =
        some { s with tolerance := meant s.tolerance } := rfl
  refine read?_recordText_of_understands hwords ?_ hmeant
  exact .cons ⟨rfl, fun t ↦ Reading.understands_real (real?_text s.tolerance)⟩
    (.cons ⟨rfl, hreported.understands⟩ .nil)

end Yaml

namespace Kind

/-- What is read from the text of validation settings. From JSON it is the settings themselves if
their tolerance is finite; otherwise the text is refused. From YAML it is the settings themselves,
but a NaN may become another NaN, and exactly the tolerances of the misread magnitude become the
next ones. -/
theorem written_tolerance_read_back (s : Validation.Settings) :
    (s.tolerance.isFinite →
      json.read? Validation.Settings (json.write s) = some s) ∧
    (¬ s.tolerance.isFinite → json.read? Validation.Settings (json.write s) = none) ∧
    (s.tolerance.isNaN → ∃ t : Single, t.isNaN ∧
      yaml.read? Validation.Settings (yaml.write s) = some { s with tolerance := t }) ∧
    (¬ s.tolerance.isNaN →
      (yaml.read? Validation.Settings (yaml.write s) = some s ↔
        s.tolerance.magnitude ≠ misread)) ∧
    (s.tolerance.magnitude = misread →
      yaml.read? Validation.Settings (yaml.write s) =
        some { s with tolerance := Word.saturated s.tolerance.negative (misread + 1) }) := by
  have hyaml : yaml.read? Validation.Settings (yaml.write s) =
      some { s with tolerance := Yaml.meant s.tolerance } := Yaml.read?_write s
  have hnext : s.tolerance.magnitude = misread →
      Yaml.meant s.tolerance = Word.saturated s.tolerance.negative (misread + 1) := by
    intro h
    have hnumber : ¬ s.tolerance.isNaN := by rw [Word.isNaN, h]; decide
    rw [Yaml.meant, if_neg hnumber, if_pos h]
  rw [hyaml]
  refine ⟨Json.read?_write_of_isFinite, Json.read?_write_of_not_isFinite, fun h ↦ ?_, fun h ↦ ?_,
    fun h ↦ by rw [hnext h]⟩
  · refine ⟨Yaml.meant s.tolerance, ?_, rfl⟩
    rw [Yaml.meant, if_pos h]
    decide
  · constructor
    · intro hsame hmisread
      have htolerance := congrArg Validation.Settings.tolerance (Option.some.inj hsame)
      have hmagnitude := congrArg Word.magnitude ((hnext hmisread).symm.trans htolerance)
      rw [hmisread] at hmagnitude
      exact absurd hmagnitude (by cases s.tolerance.negative <;> decide)
    · intro hne
      rw [Yaml.meant, if_neg h, if_neg hne]

/-- The smallest tolerance is read back from both formats, an infinite one is refused in JSON and
read back from YAML, and one that is no number stays so in YAML. -/
theorem written_tolerance_read_back_extremes :
    json.read? Validation.Settings
        (json.write (⟨Word.ofBits 0x00000001, 5⟩ : Validation.Settings)) =
      some ⟨Word.ofBits 0x00000001, 5⟩ ∧
    yaml.read? Validation.Settings
        (yaml.write (⟨Word.ofBits 0x00000001, 5⟩ : Validation.Settings)) =
      some ⟨Word.ofBits 0x00000001, 5⟩ ∧
    json.read? Validation.Settings
        (json.write (⟨Word.infinite true, 5⟩ : Validation.Settings)) = none ∧
    yaml.read? Validation.Settings
        (yaml.write (⟨Word.infinite true, 5⟩ : Validation.Settings)) =
      some ⟨Word.infinite true, 5⟩ ∧
    ∃ t : Single, t.isNaN ∧
      yaml.read? Validation.Settings
          (yaml.write (⟨Word.ofBits 0xff800001, 5⟩ : Validation.Settings)) = some ⟨t, 5⟩ := by
  obtain ⟨hjson, -, -, hyaml, -⟩ := written_tolerance_read_back ⟨Word.ofBits 0x00000001, 5⟩
  obtain ⟨-, hrefused, -, hinfinite, -⟩ := written_tolerance_read_back ⟨Word.infinite true, 5⟩
  obtain ⟨-, -, hnan, -⟩ := written_tolerance_read_back ⟨Word.ofBits 0xff800001, 5⟩
  exact ⟨hjson (by decide), (hyaml (by decide)).mpr (by decide), hrefused (by decide),
    (hinfinite (by decide)).mpr (by decide), hnan (by decide)⟩

/-- The digits `7.038531e-26` are read from YAML as the word after the one that they are written
for. -/
theorem yaml_reads_next_tolerance :
    yaml.write (⟨Word.ofBits 0x15ae43fd, 5⟩ : Validation.Settings) =
        "tolerance: 7.038531e-26\nmax_reported: 5\n" ∧
      yaml.read? Validation.Settings "tolerance: 7.038531e-26\nmax_reported: 5\n" =
        some ⟨Word.ofBits 0x15ae43fe, 5⟩ ∧
      yaml.read? Validation.Settings
          (yaml.write (⟨Word.ofBits 0x15ae43fd, 5⟩ : Validation.Settings)) ≠
        some ⟨Word.ofBits 0x15ae43fd, 5⟩ := by
  have hwrite : yaml.write (⟨Word.ofBits 0x15ae43fd, 5⟩ : Validation.Settings) =
      "tolerance: 7.038531e-26\nmax_reported: 5\n" := by
    show Yaml.write _ = _
    decide +kernel
  have hread : yaml.read? Validation.Settings "tolerance: 7.038531e-26\nmax_reported: 5\n" =
      some ⟨Word.ofBits 0x15ae43fe, 5⟩ := by
    show Yaml.read? Validation.Settings _ = _
    decide +kernel
  refine ⟨hwrite, hread, ?_⟩
  rw [hwrite, hread]
  decide

end Kind

end IndexedCodebook.Document
