import IndexedCodebook.Document.Json
import IndexedCodebook.Document.Yaml
import IndexedCodebook.Proofs.Json.Object
import IndexedCodebook.Proofs.Yaml.BlockMapping
import Mathlib.Data.List.Forall2

/-!
# Reading a record that was written

Values are read as themselves by `Value.reading`, and a format understands a written value if it
reads no other one from it (`Reading.Understands`). What settings become depends on nothing else, so
a record whose values a format understands is read from its text as from the record itself:
`Json.read?_recordText` and `Yaml.read?_recordText`.
-/

namespace IndexedCodebook.Document

/-- Values, read as themselves. -/
def Value.reading : Reading Value where
  integer
    | .integer n => some n
    | _ => none
  optionalInteger
    | .integer n => some (some n)
    | .null => some none
    | _ => none
  real
    | .real x => some x
    | _ => none

section

variable {V : Type} {reading : Reading V} {v : V} {value : Value}

/-- What is read from a value that was written, for each kind of field that may hold it, is that
value. -/
structure Reading.Understands (reading : Reading V) (v : V) (value : Value) : Prop where
  integer : ∀ n, Value.reading.integer value = some n → reading.integer v = some n
  optionalInteger : ∀ o,
    Value.reading.optionalInteger value = some o → reading.optionalInteger v = some o
  real : ∀ x, Value.reading.real value = some x → reading.real v = some x

/-- An integer is understood where it is read as a field that is set, or may be. -/
theorem Reading.understands_integer {n : UInt64} (h : reading.integer v = some n)
    (hoptional : reading.optionalInteger v = some (some n)) :
    reading.Understands v (.integer n) := by
  constructor
  · rintro _ ⟨⟩
    exact h
  · rintro _ ⟨⟩
    exact hoptional
  · rintro _ ⟨⟩

/-- Nothing is understood where it is read as a field that is not set. -/
theorem Reading.understands_null (h : reading.optionalInteger v = some none) :
    reading.Understands v .null := by
  constructor
  · rintro _ ⟨⟩
  · rintro _ ⟨⟩
    exact h
  · rintro _ ⟨⟩

/-- A real number is understood where it is read as one. -/
theorem Reading.understands_real {x : Single} (h : reading.real v = some x) :
    reading.Understands v (.real x) := by
  constructor
  · rintro _ ⟨⟩
  · rintro _ ⟨⟩
  · rintro _ ⟨⟩
    exact h

/-- Settings whose fields depend on what is read alone. -/
class LawfulSettings (α : Type) [Settings α] : Prop where
  assign_of_understands {V : Type} {reading : Reading V} {v : V} {value : Value}
    (h : reading.Understands v value) {s s' : α} {name : String}
    (hs : Settings.assign Value.reading s name value = some s') :
    Settings.assign reading s name v = some s'

private theorem map_eq_some_of_imp {β γ : Type} {f : β → γ} {x y : Option β} {c : γ}
    (h : ∀ b, x = some b → y = some b) (hx : f <$> x = some c) : f <$> y = some c := by
  obtain ⟨b, hb, rfl⟩ := Option.map_eq_some_iff.mp hx
  rw [h b hb, Option.map_eq_map, Option.map_some]

instance : LawfulSettings Addressing where
  assign_of_understands := by
    intro V reading v value h a a' name ha
    simp only [Settings.assign] at ha ⊢
    by_cases hsize : name = "group_size"
    · rw [if_pos hsize] at ha ⊢
      exact map_eq_some_of_imp h.integer ha
    · rw [if_neg hsize] at ha ⊢
      by_cases hcols : name = "col_cardinality"
      · rw [if_pos hcols] at ha ⊢
        exact map_eq_some_of_imp h.integer ha
      · rw [if_neg hcols] at ha ⊢
        by_cases hrows : name = "row_cardinality"
        · rw [if_pos hrows] at ha ⊢
          exact map_eq_some_of_imp h.optionalInteger ha
        · rw [if_neg hrows] at ha ⊢
          exact ha

instance : LawfulSettings Validation.Settings where
  assign_of_understands := by
    intro V reading v value h s s' name hs
    simp only [Settings.assign] at hs ⊢
    by_cases htolerance : name = "tolerance"
    · rw [if_pos htolerance] at hs ⊢
      exact map_eq_some_of_imp h.real hs
    · rw [if_neg htolerance] at hs ⊢
      by_cases hreported : name = "max_reported"
      · rw [if_pos hreported] at hs ⊢
        exact map_eq_some_of_imp h.integer hs
      · rw [if_neg hreported] at hs ⊢
        exact hs

/-- The fields of a document are a record that was written: they have its names in order, and their
values are understood. -/
def Reading.UnderstandsFields (reading : Reading V) : List (String × V) → Record → Prop :=
  List.Forall₂ fun field written ↦ field.1 = written.1 ∧ reading.Understands field.2 written.2

namespace Reading.UnderstandsFields

variable {α : Type} [Settings α] {fields : List (String × V)} {record : Record}

private theorem names_eq (h : reading.UnderstandsFields fields record) :
    fields.map (·.1) = record.map (·.1) := by
  induction h with
  | nil => rfl
  | cons hfield hmore ih => exact congr (congrArg List.cons hfield.1) ih

private theorem foldlM_assign [LawfulSettings α] (h : reading.UnderstandsFields fields record)
    {start s : α} (hs : record.foldlM (fun settings field ↦
      Settings.assign Value.reading settings field.1 field.2) start = some s) :
    fields.foldlM (fun settings field ↦
      Settings.assign reading settings field.1 field.2) start = some s := by
  induction h generalizing start with
  | nil => exact hs
  | cons hfield hmore ih =>
    rw [List.foldlM_cons, Option.bind_eq_bind, Option.bind_eq_some_iff] at hs ⊢
    obtain ⟨next, hnext, hrest⟩ := hs
    refine ⟨next, ?_, ih hrest⟩
    rw [hfield.1]
    exact LawfulSettings.assign_of_understands hfield.2 hnext

/-- Settings are read from the fields of a document as from the record that was written. -/
theorem readFields_eq [LawfulSettings α] (h : reading.UnderstandsFields fields record) {s : α}
    (hs : readFields α Value.reading record = some s) : readFields α reading fields = some s := by
  rw [readFields] at hs ⊢
  rw [h.names_eq]
  split at hs
  · next hnames =>
    rw [if_pos hnames]
    exact h.foldlM_assign hs
  · cases hs

end Reading.UnderstandsFields

end

namespace Json

/-- A field of an object is a field of a record: it has its name and its text, and its value is
understood. -/
structure Writes (written : String × Value) (field : Json.Field) : Prop where
  name : field.name = written.1.toList
  text : field.text = (written.2.text realStyle).toList
  understands : reading.Understands field.value written.2

private theorem exists_fields {record : Record}
    (h : ∀ written ∈ record, ∃ field : Json.Field, field.Written ∧ Writes written field) :
    ∃ fields : List Json.Field,
      (∀ field ∈ fields, field.Written) ∧ List.Forall₂ Writes record fields := by
  induction record with
  | nil => exact ⟨[], by simp, .nil⟩
  | cons written record ih =>
    obtain ⟨field, hfield, hwrites⟩ := h written List.mem_cons_self
    obtain ⟨fields, hfields, hmore⟩ := ih fun w hw ↦ h w (List.mem_cons_of_mem written hw)
    exact ⟨field :: fields, List.forall_mem_cons.mpr ⟨hfield, hfields⟩, .cons hwrites hmore⟩

private theorem toList_recordText {record : Record} {fields : List Json.Field}
    (h : List.Forall₂ Writes record fields) :
    (recordText record).toList =
      '{' :: ([','].intercalate (fields.map Json.Field.chars) ++ ['}']) := by
  have hchars : (record.map fun written ↦
      "\"" ++ written.1 ++ "\":" ++ written.2.text realStyle).map String.toList =
        fields.map Json.Field.chars := by
    induction h with
    | nil => rfl
    | @cons written field record fields hfield hmore ih =>
      rw [List.map_cons, List.map_cons, List.map_cons, ih, Json.Field.chars, hfield.name,
        hfield.text]
      simp
  have hrecord : recordText record = "\x7b" ++ ",".intercalate (record.map fun written ↦
      "\"" ++ written.1 ++ "\":" ++ written.2.text realStyle) ++ "\x7d" := rfl
  simp [hrecord, String.toList_intercalate, hchars]

private theorem fields?_object (names : List String) (fields : List Json.Field) :
    fields? names (.object (fields.map fun field ↦ (some field.name, field.value))) =
      some (fields.map fun field ↦ (String.ofList field.name, field.value)) := by
  induction fields with
  | nil => rfl
  | cons field fields ih =>
    simp only [fields?, List.map_cons, List.mapM_cons] at ih ⊢
    rw [ih]
    rfl

/-- What is read from the text of a record is what is read from the fields of its object. -/
theorem read?_recordText_eq {α : Type} [Settings α] {record : Record} {fields : List Json.Field}
    (hfields : ∀ field ∈ fields, field.Written) (hwrites : List.Forall₂ Writes record fields) :
    read? α (recordText record) = readFields α reading
      (fields.map fun field ↦ (String.ofList field.name, field.value)) := by
  rw [read?, toList_recordText hwrites, Json.Value.parse?_object hfields]
  simp only [Option.bind_eq_bind, Option.bind_some, fields?_object]

/-- A record is read from the object that it is written as. -/
theorem read?_recordText {α : Type} [Settings α] [LawfulSettings α] {record : Record}
    (h : ∀ written ∈ record, ∃ field : Json.Field, field.Written ∧ Writes written field) {s : α}
    (hs : readFields α Value.reading record = some s) : read? α (recordText record) = some s := by
  obtain ⟨fields, hfields, hwrites⟩ := exists_fields h
  have hunderstands : reading.UnderstandsFields
      (fields.map fun field ↦ (String.ofList field.name, field.value)) record := by
    rw [Reading.UnderstandsFields, List.forall₂_map_left_iff]
    refine hwrites.flip.imp fun field written hfield ↦ ⟨?_, hfield.understands⟩
    rw [hfield.name, String.ofList_toList]
  rw [read?_recordText_eq hfields hwrites]
  exact hunderstands.readFields_eq hs

end Json

namespace Yaml

open IndexedCodebook.Yaml

/-- A field that can be written as a line: its name and its value are plain words, and the value is
understood. -/
structure Writes (written : String × Value) : Prop where
  name : IsWord written.1.toList
  length_name : written.1.toList.length ≤ 1024
  text : IsWord (written.2.text realStyle).toList
  understands : ∀ t, (reading t).Understands (.ofWord (written.2.text realStyle).toList) written.2

/-- The line of a field. -/
def line (written : String × Value) : Line :=
  ⟨written.1.toList, (written.2.text realStyle).toList⟩

private theorem toList_recordText (record : Record) :
    (recordText record).toList = (record.map line).foldr Line.chars [] := by
  rw [recordText, String.toList_join, List.flatMap_map]
  induction record with
  | nil => rfl
  | cons written record ih =>
    rw [List.flatMap_cons, ih]
    simp [line, Line.chars]

private theorem fields?_mapping (lines : List Line) :
    fields? ⟨.mapping (lines.map fun l ↦ (Node.ofWord l.key, Node.ofWord l.word)), []⟩ =
      some (lines.map fun l ↦ (String.ofList l.key, Node.ofWord l.word)) := by
  -- for any tree, since the nodes of the tree itself get fewer in the induction
  have hnames : ∀ (t : Tree) (lines : List Line),
      (lines.map fun l ↦ (Node.ofWord l.key, Node.ofWord l.word)).mapM (fun pair ↦ do
        return (String.ofList (← t.scalar? pair.1).text, pair.2)) =
          some (lines.map fun l ↦ (String.ofList l.key, Node.ofWord l.word)) := by
    intro t lines
    induction lines with
    | nil => rfl
    | cons l lines ih =>
      rw [List.map_cons, List.mapM_cons, ih]
      rfl
  exact hnames _ lines

private theorem exists_tree {lines : List Line} (h : ∀ l ∈ lines, l.Written) :
    ∃ tree, Tree.parse? (lines.foldr Line.chars []) = some tree ∧
      fields? tree = some (lines.map fun l ↦ (String.ofList l.key, Node.ofWord l.word)) := by
  by_cases hne : lines = []
  · subst hne
    exact ⟨.empty, Tree.parse?_nil, rfl⟩
  · exact ⟨_, Tree.parse?_lines h hne, fields?_mapping lines⟩

/-- A record of words is read from the lines that it is written as, as any record that they are
understood to be. -/
theorem read?_recordText_of_understands {α : Type} [Settings α] [LawfulSettings α]
    {record meant : Record}
    (hwords : ∀ written ∈ record, IsWord written.1.toList ∧ written.1.toList.length ≤ 1024 ∧
      IsWord (written.2.text realStyle).toList)
    (h : List.Forall₂ (fun written meant ↦ written.1 = meant.1 ∧ ∀ t,
      (reading t).Understands (.ofWord (written.2.text realStyle).toList) meant.2) record meant)
    {s : α} (hs : readFields α Value.reading meant = some s) :
    read? α (recordText record) = some s := by
  have hlines : ∀ l ∈ record.map line, l.Written := by
    rintro l hl
    obtain ⟨written, hwritten, rfl⟩ := List.mem_map.mp hl
    obtain ⟨hname, hlength, htext⟩ := hwords written hwritten
    exact ⟨hname, hlength, htext⟩
  obtain ⟨tree, htree, hfields⟩ := exists_tree hlines
  have hunderstands : (reading tree).UnderstandsFields
      ((record.map line).map fun l ↦ (String.ofList l.key, Node.ofWord l.word)) meant := by
    rw [Reading.UnderstandsFields, List.map_map, List.forall₂_map_left_iff]
    exact h.imp fun written meant hmeant ↦
      ⟨String.ofList_toList.trans hmeant.1, hmeant.2 tree⟩
  rw [read?, toList_recordText, htree]
  simp only [Option.bind_eq_bind, Option.bind_some, hfields]
  exact hunderstands.readFields_eq hs

/-- A record is read from the lines that it is written as. -/
theorem read?_recordText {α : Type} [Settings α] [LawfulSettings α] {record : Record}
    (h : ∀ written ∈ record, Writes written) {s : α}
    (hs : readFields α Value.reading record = some s) : read? α (recordText record) = some s := by
  refine read?_recordText_of_understands (fun written hwritten ↦ ?_) ?_ hs
  · have hw := h written hwritten
    exact ⟨hw.name, hw.length_name, hw.text⟩
  · exact List.forall₂_same.mpr fun written hwritten ↦ ⟨rfl, (h written hwritten).understands⟩

end Yaml

end IndexedCodebook.Document
