import IndexedCodebook.Document.Load
import IndexedCodebook.Proofs.Addressing.Lengths
import IndexedCodebook.Proofs.Document.Values
import Mathlib.Data.List.Nodup

/-!
# Documents of an addressing

A document that holds some fields of an addressing, in any order, is read as the addressing with its
values in these fields and the usual ones in the others (`Addressing.only`), in either format. It is
given out if it passes its check, and refused as the check refuses it otherwise:
`load_written_fields`.
-/

namespace IndexedCodebook

open Document Outcome

namespace Addressing

/-- A field of an addressing. -/
inductive Field where
  | groupSize
  | colCardinality
  | rowCardinality
  deriving DecidableEq, Repr

/-- A field as it is written. -/
def written (a : Addressing) : Field → String × Value
  | .groupSize => ("group_size", .integer a.groupSize)
  | .colCardinality => ("col_cardinality", .integer a.colCardinality)
  | .rowCardinality => ("row_cardinality", .ofOption a.rowCardinality)

/-- The addressing with its values in some fields, and with the usual values in the others. -/
def only (a : Addressing) (fields : List Field) : Addressing where
  groupSize := if .groupSize ∈ fields then a.groupSize else 16
  colCardinality := if .colCardinality ∈ fields then a.colCardinality else 16
  rowCardinality := if .rowCardinality ∈ fields then a.rowCardinality else some 4

/-- A field of an addressing taken over from another one. -/
def take (a b : Addressing) : Field → Addressing
  | .groupSize => { b with groupSize := a.groupSize }
  | .colCardinality => { b with colCardinality := a.colCardinality }
  | .rowCardinality => { b with rowCardinality := a.rowCardinality }

variable {a b : Addressing} {fields : List Field}

private theorem assign_written (a b : Addressing) (field : Field) :
    Settings.assign Value.reading b (a.written field).1 (a.written field).2 =
      some (a.take b field) := by
  cases field with
  | groupSize => rfl
  | colCardinality => rfl
  | rowCardinality =>
    -- null and an integer are values of different kinds
    obtain ⟨groupSize, colCardinality, rowCardinality⟩ := a
    cases rowCardinality with
    | none => rfl
    | some rows => rfl

private theorem foldl_take (a b : Addressing) (fields : List Field) :
    fields.foldl a.take b =
      { groupSize := if .groupSize ∈ fields then a.groupSize else b.groupSize
        colCardinality :=
          if .colCardinality ∈ fields then a.colCardinality else b.colCardinality
        rowCardinality :=
          if .rowCardinality ∈ fields then a.rowCardinality else b.rowCardinality } := by
  induction fields generalizing b with
  | nil => rfl
  | cons field fields ih =>
    rw [List.foldl_cons, ih]
    cases field <;> simp [take]

private theorem foldlM_assign_written (a b : Addressing) (fields : List Field) :
    (fields.map a.written).foldlM (fun settings field ↦
      Settings.assign Value.reading settings field.1 field.2) b = some (fields.foldl a.take b) := by
  induction fields generalizing b with
  | nil => rfl
  | cons field fields ih =>
    rw [List.map_cons, List.foldlM_cons, assign_written, Option.bind_eq_bind, Option.bind_some, ih,
      List.foldl_cons]

private theorem nodup_names (a : Addressing) (h : fields.Nodup) :
    ((fields.map a.written).map (·.1)).Nodup := by
  rw [List.map_map]
  refine h.map fun field field' hname ↦ ?_
  cases field <;> cases field' <;> simp [written] at hname ⊢

/-- Different written fields are read as the addressing with them alone. -/
theorem readFields_written (a : Addressing) (h : fields.Nodup) :
    readFields Addressing Value.reading (fields.map a.written) = some (a.only fields) := by
  rw [readFields, if_pos ((a.nodup_names h).filter _), foldlM_assign_written]
  exact congrArg some (foldl_take a {} fields)

/-- All fields, in the order of the record. -/
def Field.all : List Field := [.groupSize, .colCardinality, .rowCardinality]

private theorem map_written_all (a : Addressing) :
    Field.all.map a.written = Settings.record a := rfl

private theorem only_all (a : Addressing) : a.only Field.all = a := rfl

private theorem json_writes (a : Addressing) (field : Field) :
    ∃ f : Json.Field, f.Written ∧ Document.Json.Writes (a.written field) f := by
  cases field with
  | groupSize => exact Document.Json.writes_integer (by decide) a.groupSize
  | colCardinality => exact Document.Json.writes_integer (by decide) a.colCardinality
  | rowCardinality =>
    rw [written]
    cases a.rowCardinality with
    | none => exact Document.Json.writes_null (by decide)
    | some rows => exact Document.Json.writes_integer (by decide) rows

private theorem yaml_writes (a : Addressing) (field : Field) :
    Document.Yaml.Writes (a.written field) := by
  cases field with
  | groupSize => exact Document.Yaml.writes_integer ⟨by decide, by decide, by decide⟩ (by decide) _
  | colCardinality =>
    exact Document.Yaml.writes_integer ⟨by decide, by decide, by decide⟩ (by decide) _
  | rowCardinality =>
    rw [written]
    cases a.rowCardinality with
    | none => exact Document.Yaml.writes_null ⟨by decide, by decide, by decide⟩ (by decide)
    | some rows =>
      exact Document.Yaml.writes_integer ⟨by decide, by decide, by decide⟩ (by decide) rows

end Addressing

namespace Document.Kind

/-- The text of a record in either format. -/
def recordText : Kind → Record → String
  | json, record => Json.recordText record
  | yaml, record => Yaml.recordText record

open Addressing in
private theorem read?_written (kind : Kind) (a : Addressing) {fields : List Field}
    (h : fields.Nodup) :
    kind.read? Addressing (kind.recordText (fields.map a.written)) = some (a.only fields) := by
  have hread := a.readFields_written h
  cases kind with
  | json =>
    refine Json.read?_recordText (fun w hw ↦ ?_) hread
    obtain ⟨field, -, rfl⟩ := List.mem_map.mp hw
    exact a.json_writes field
  | yaml =>
    refine Yaml.read?_recordText (fun w hw ↦ ?_) hread
    obtain ⟨field, -, rfl⟩ := List.mem_map.mp hw
    exact a.yaml_writes field

private theorem write_eq {α : Type} [Settings α] (kind : Kind) (settings : α) :
    kind.write settings = kind.recordText (Settings.record settings) := by
  cases kind with
  | json => rfl
  | yaml => rfl

private theorem read?_braces (kind : Kind) : kind.read? Addressing "\x7b\x7d\n" = some {} := by
  cases kind with
  | json =>
    show Json.read? Addressing "\x7b\x7d\n" = some {}
    decide +kernel
  | yaml =>
    show Yaml.read? Addressing "\x7b\x7d\n" = some {}
    decide +kernel

private theorem fromUTF8?_toUTF8 (text : String) : String.fromUTF8? text.toUTF8 = some text := by
  exact dif_pos text.isValidUTF8

private theorem loadAddressing_toUTF8 (kind : Kind) (text : String) :
    kind.loadAddressing (some text.toUTF8) = kind.readAddressing text := by
  rw [loadAddressing, Option.bind_some, fromUTF8?_toUTF8]

private theorem readAddressing_of_read? {kind : Kind} {text : String} {a : Addressing}
    (h : kind.read? Addressing text = some a) :
    kind.readAddressing text = a.check >>= fun _ ↦ .ok a := by
  rw [readAddressing, h]
  rfl

/-- What is loaded has passed its check. -/
theorem check_of_loadAddressing {kind : Kind} {content : Option ByteArray} {a : Addressing}
    (h : kind.loadAddressing content = .ok a) : a.check = .ok () := by
  rw [loadAddressing] at h
  split at h
  · cases h
  · next text _ =>
    rw [readAddressing] at h
    split at h
    · cases h
    · next b _ =>
      obtain ⟨_, hcheck, hb⟩ := bind_eq_ok_iff.mp h
      cases hb
      exact hcheck

/-- A document of some fields, each of them once, is loaded as what is read from it if that passes
its check, and else refused as the check refuses it. -/
theorem loadAddressing_written (kind : Kind) (a : Addressing) {fields : List Addressing.Field}
    (h : fields.Nodup) :
    kind.loadAddressing (some (kind.recordText (fields.map a.written)).toUTF8) =
      (a.only fields).check >>= fun _ ↦ .ok (a.only fields) := by
  rw [loadAddressing_toUTF8, readAddressing_of_read? (kind.read?_written a h)]

/-- Documents of an addressing, in either format. One that holds some of its fields in any order is
loaded as the addressing with its values there and the usual ones in the others, if that can be used
at all; else the refusal is that of its check and names an argument. So what is written as a whole
is loaded unchanged, a written null stays null, and a field that is absent is filled in. No content
whatsoever is loaded as an addressing that cannot be used. -/
theorem load_written_fields (kind : Kind) (a : Addressing) :
    (∀ fields : List Addressing.Field, fields.Nodup →
      kind.loadAddressing (some (kind.recordText (fields.map a.written)).toUTF8) =
        (a.only fields).check >>= fun _ ↦ .ok (a.only fields)) ∧
    (∀ (fields : List Addressing.Field) (fault : Fault), fields.Nodup →
      kind.loadAddressing (some (kind.recordText (fields.map a.written)).toUTF8) = .error fault →
      ∃ name cause, fault = .argument name cause) ∧
    (∀ (fields : List Addressing.Field) (d : Addressing), fields.Nodup →
      kind.loadAddressing (some (kind.recordText (fields.map a.written)).toUTF8) = .ok d →
      d.rowCardinality = if .rowCardinality ∈ fields then a.rowCardinality else some 4) ∧
    (a.check = .ok () → kind.loadAddressing (some (kind.write a).toUTF8) = .ok a) ∧
    kind.loadAddressing (some "\x7b\x7d\n".toUTF8) = .ok {} ∧
    ∀ (content : Option ByteArray) (d : Addressing),
      kind.loadAddressing content = .ok d → d.check = .ok () := by
  refine ⟨fun fields h ↦ kind.loadAddressing_written a h, fun fields fault h hfault ↦ ?_,
    fun fields d h hd ↦ ?_, fun hcheck ↦ ?_, ?_, fun content d ↦ check_of_loadAddressing⟩
  · rw [loadAddressing_written kind a h, bind_ok_eq_error_iff] at hfault
    exact Addressing.check_eq_error hfault
  · rw [loadAddressing_written kind a h] at hd
    obtain ⟨_, -, hd⟩ := bind_eq_ok_iff.mp hd
    cases hd
    rfl
  · have hall : Addressing.Field.all.Nodup := by decide
    have hload := kind.loadAddressing_written a hall
    rw [Addressing.map_written_all, Addressing.only_all, hcheck, ← write_eq] at hload
    exact hload
  · rw [loadAddressing_toUTF8, readAddressing_of_read? (kind.read?_braces)]
    rfl

/-- The largest group size behind a null, without a column cardinality, is loaded; a group size of
zero is refused. -/
theorem load_written_fields_largest_group_size :
    Kind.yaml.loadAddressing
        (some "row_cardinality: null\ngroup_size: 18446744073709551615\n".toUTF8) =
      .ok ⟨18446744073709551615, 16, none⟩ ∧
    Kind.json.loadAddressing (some "\x7b\"group_size\":0\x7d".toUTF8) =
      .error (.argument .groupSize .zero) := by
  obtain ⟨hyaml, -⟩ := load_written_fields .yaml ⟨18446744073709551615, 16, none⟩
  obtain ⟨hjson, -⟩ := load_written_fields .json ⟨0, 16, none⟩
  constructor
  · exact hyaml [.rowCardinality, .groupSize] (by decide)
  · exact hjson [.groupSize] (by decide)

end Document.Kind

end IndexedCodebook
