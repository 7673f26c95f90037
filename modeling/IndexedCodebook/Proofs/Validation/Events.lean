import IndexedCodebook.Proofs.Validation.Agreement

/-!
# The events of a validation tell what its report tells

A tally notes mismatches up to the number of its samples and skipped positions up to their own
count, so notes of both kinds alternate. They are some of the notes that its findings are worth, in
order, and those of mismatches are the samples (`Tally.notes_foldl`). Together with the size of the
codebook before them and the summary after them they are all events of a validation that gives a
report; one that fails notes the size of the codebook at most (`events_tell_report`).
-/

namespace IndexedCodebook

namespace Event

/-- The mismatch that an event notes. -/
def mismatch? : Event → Option Mismatch
  | mismatch m => some m
  | smallCodebook .. | unreachableEntries .. | dequantizing .. | skipped _ | finished .. => none

/-- The position that an event warns of. -/
def position? : Event → Option Nat
  | skipped s => some s.position
  | mismatch m => some m.position
  | smallCodebook .. | unreachableEntries .. | dequantizing .. | finished .. => none

private theorem level_of_isSome_position? {event : Event} (h : event.position?.isSome) :
    event.level = .warn := by
  cases event with
  | skipped s => rfl
  | mismatch m => rfl
  | smallCodebook entries space => cases h
  | unreachableEntries entries space => cases h
  | dequantizing elements groups entries groupSize colCardinality => cases h
  | finished checked mismatches outOfRange passed => cases h

private theorem guard_message_eq_mismatch (event : Event) :
    Option.guard (·.message = "result mismatch") event = event.mismatch?.map .mismatch := by
  cases event <;> rfl

private theorem guard_message_eq_skipped (event : Event) :
    Option.guard (·.message = "codebook address out of range, skipping") event =
      event.skipped?.map .skipped := by
  cases event <;> rfl

private theorem filter_message_eq_mismatch (events : List Event) :
    events.filter (·.message = "result mismatch") =
      (events.filterMap mismatch?).map .mismatch := by
  rw [List.map_filterMap, ← List.filterMap_eq_filter]
  congr 1
  funext event
  exact event.guard_message_eq_mismatch

private theorem filter_message_eq_skipped (events : List Event) :
    events.filter (·.message = "codebook address out of range, skipping") =
      (events.filterMap skipped?).map .skipped := by
  rw [List.map_filterMap, ← List.filterMap_eq_filter]
  congr 1
  funext event
  exact event.guard_message_eq_skipped

end Event

namespace Validation

/-- The note that a finding is worth. -/
def Finding.note? : Finding → Option Event
  | agrees => none
  | differs m => some (.mismatch m)
  | unreachable s => some (.skipped s)

namespace Tally

variable {maxReported : Nat} {findings : List Finding} {t : Tally}

/-- The events are some of the notes that the findings are worth, in order, and those of mismatches
are the samples. -/
structure Notes (findings : List Finding) (t : Tally) : Prop where
  sublist : t.events.toList.Sublist (findings.filterMap Finding.note?)
  mismatches : t.events.toList.filterMap Event.mismatch? = t.samples.toList

private theorem Notes.sublist_push (h : Notes findings t) (event : Event) (p : Prop) [Decidable p] :
    (if p then t.events.push event else t.events).toList.Sublist
      (findings.filterMap Finding.note? ++ [event]) := by
  split
  · rw [Array.toList_push]
    exact h.sublist.append (List.Sublist.refl _)
  · exact h.sublist.trans (List.sublist_append_left _ _)

private theorem Notes.mismatches_push (h : Notes findings t) (m : Mismatch) :
    (if t.samples.size < maxReported then t.events.push (.mismatch m)
      else t.events).toList.filterMap Event.mismatch? =
      (if t.samples.size < maxReported then t.samples.push m else t.samples).toList := by
  split
  · rw [Array.toList_push, Array.toList_push, List.filterMap_append, h.mismatches]
    rfl
  · exact h.mismatches

private theorem Notes.mismatches_push_skipped (h : Notes findings t) (s : Skipped) (p : Prop)
    [Decidable p] :
    (if p then t.events.push (.skipped s) else t.events).toList.filterMap Event.mismatch? =
      t.samples.toList := by
  split
  · rw [Array.toList_push, List.filterMap_append, List.filterMap_cons_none rfl, List.filterMap_nil,
      List.append_nil]
    exact h.mismatches
  · exact h.mismatches

/-- A tally goes on noting in order when it takes in one more finding. -/
theorem Notes.add (h : Notes findings t) (finding : Finding) :
    Notes (findings ++ [finding]) (t.add maxReported finding) := by
  cases finding with
  | agrees =>
    constructor
    · rw [List.filterMap_append, List.filterMap_cons_none rfl, List.filterMap_nil, List.append_nil]
      exact h.sublist
    · exact h.mismatches
  | differs m =>
    rw [add_differs]
    constructor
    · rw [List.filterMap_append]
      exact h.sublist_push (.mismatch m) _
    · exact h.mismatches_push m
  | unreachable s =>
    rw [add_unreachable]
    constructor
    · rw [List.filterMap_append]
      exact h.sublist_push (.skipped s) _
    · exact h.mismatches_push_skipped s _

private theorem notes_foldl (maxReported : Nat) (findings : List Finding) :
    Notes findings (findings.foldl (Tally.add maxReported) {}) :=
  foldl_add_of_step ⟨List.Sublist.refl _, rfl⟩ (fun _ _ h ↦ h.add) findings

end Tally

/-- What is noted about the size of a codebook: at most one event. -/
inductive SizeNotes (entries : Nat) : List Event → Prop
  | none : SizeNotes entries []
  | small (space : Nat) : SizeNotes entries [.smallCodebook entries space]
  | unreachable (space : Nat) : SizeNotes entries [.unreachableEntries entries space]

/-- Warnings of positions, each of another one, by position. -/
structure WarnsInOrder (warnings : List Event) : Prop where
  position_isSome : ∀ event ∈ warnings, event.position?.isSome
  increasing : (warnings.filterMap Event.position?).Pairwise (· < ·)

/-- The summary of a report. -/
def Report.summary (r : Report) : Event :=
  .finished r.checked r.mismatchCount r.outOfRangeCount r.passed

/-- The events of a comparison tell what its report tells. -/
structure Comparison.Told (c : Comparison) (r : Report) (events : List Event) : Prop where
  /-- The size of the codebook comes first, then come warnings of positions, and a summary is
  last. -/
  parts : ∃ sizes warnings, SizeNotes c.entries sizes ∧ WarnsInOrder warnings ∧
    events = sizes ++ warnings ++ [r.summary]
  /-- Nothing but the summary informs. -/
  summary : events.filter (·.level = .info) = [r.summary]
  /-- The mismatches that are noted are those that the report holds. -/
  mismatches : events.filter (·.message = "result mismatch") = r.mismatches.map .mismatch
  /-- The skipped positions that are noted are the first of those that do not resolve, with their
  addresses where these fit in 64 bits. -/
  skipped : events.filter (·.message = "codebook address out of range, skipping") =
    (((List.range c.size).filter c.skips).take
      (min c.settings.maxReported.toNat r.outOfRangeCount)).map fun i ↦ .skipped
        { position := i
          row := c.row i
          col := c.col i
          address := if c.address i < 2 ^ 64 then some (.ofNat (c.address i)) else none
          entries := c.entries }

namespace SizeNotes

variable {entries : Nat} {sizes : List Event}

private theorem filter_level (h : SizeNotes entries sizes) :
    sizes.filter (·.level = .info) = [] := by
  cases h with
  | none => rfl
  | small space => rfl
  | unreachable space => rfl

private theorem filterMap_mismatch? (h : SizeNotes entries sizes) :
    sizes.filterMap Event.mismatch? = [] := by
  cases h with
  | none => rfl
  | small space => rfl
  | unreachable space => rfl

private theorem filterMap_skipped? (h : SizeNotes entries sizes) :
    sizes.filterMap Event.skipped? = [] := by
  cases h with
  | none => rfl
  | small space => rfl
  | unreachable space => rfl

end SizeNotes

namespace Comparison

variable {c : Comparison}

private theorem position?_note?_finding (c : Comparison) (i : Nat) :
    (c.finding i).note?.bind Event.position? =
      if c.finding i ≠ .agrees then some i else none := by
  unfold finding
  split
  · rfl
  · split
    · rfl
    · rfl

private theorem filterMap_position?_notes (c : Comparison) :
    (c.findings.filterMap Finding.note?).filterMap Event.position? =
      (List.range c.size).filter (c.finding · ≠ .agrees) := by
  have h := filterMap_ite (c.finding · ≠ .agrees) id (List.range c.size)
  rw [List.map_id] at h
  rw [findings, List.filterMap_filterMap, List.filterMap_map, ← h]
  congr 1
  funext i
  exact c.position?_note?_finding i

/-- The events of a tally warn of positions in order. -/
theorem warnsInOrder_tally (c : Comparison) : WarnsInOrder c.tally.events.toList := by
  have hnotes : c.tally.Notes c.findings := Tally.notes_foldl _ _
  constructor
  · intro event hevent
    obtain ⟨finding, -, hnote⟩ := List.mem_filterMap.mp (hnotes.sublist.subset hevent)
    cases finding with
    | agrees => cases hnote
    | differs m =>
      cases hnote
      rfl
    | unreachable s =>
      cases hnote
      rfl
  · have hpositions := hnotes.sublist.filterMap Event.position?
    rw [filterMap_position?_notes] at hpositions
    exact (List.pairwise_lt_range.filter _).sublist hpositions

private theorem skippedAt_eq_address (c : Comparison) (i : Nat) :
    c.skippedAt i =
      { position := i
        row := c.row i
        col := c.col i
        address := if c.address i < 2 ^ 64 then some (.ofNat (c.address i)) else none
        entries := c.entries } := by
  rw [skippedAt, address?_eq_ite]
  rfl

private theorem length_filter_skips (c : Comparison) :
    ((List.range c.size).filter c.skips).length = c.report.outOfRangeCount := by
  rw [outOfRangeCount_report_eq_countP, List.countP_eq_length_filter]

/-- With the size of the codebook noted before, the events of a comparison tell what its report
tells. -/
theorem told (c : Comparison) {sizes : List Event} (h : SizeNotes c.entries sizes) :
    c.Told c.report (sizes ++ c.outcome.events) := by
  have hnotes : c.tally.Notes c.findings := Tally.notes_foldl _ _
  constructor
  · exact ⟨sizes, c.tally.events.toList, h, c.warnsInOrder_tally, (List.append_assoc ..).symm⟩
  · have hwarnings : c.tally.events.toList.filter (·.level = .info) = [] := by
      rw [List.filter_eq_nil_iff]
      intro event hevent
      rw [Event.level_of_isSome_position? (c.warnsInOrder_tally.position_isSome event hevent)]
      decide
    rw [outcome, List.filter_append, List.filter_append, h.filter_level, hwarnings]
    rfl
  · rw [Event.filter_message_eq_mismatch, outcome, List.filterMap_append, List.filterMap_append,
      h.filterMap_mismatch?, hnotes.mismatches]
    simp [report, Tally.report, Event.mismatch?]
  · -- there are no more skipped positions than the report counts
    have htake : ((List.range c.size).filter c.skips).take
        (min c.settings.maxReported.toNat c.report.outOfRangeCount) =
          ((List.range c.size).filter c.skips).take c.settings.maxReported.toNat := by
      rw [List.take_eq_take_iff, length_filter_skips]
      omega
    rw [Event.filter_message_eq_skipped, List.filterMap_append, h.filterMap_skipped?,
      List.nil_append, filterMap_skipped?_events, htake, List.map_map]
    apply List.map_congr_left
    intro i _
    rw [Function.comp_apply, skippedAt_eq_address]

end Comparison

end Validation

namespace Addressing

open Validation Outcome

variable {f : Format} {a : Addressing} {indices : Indices} {codebook scales : Array Single}
  {settings : Settings} {output : Array (Word f)}

private theorem sizeNotes_sizeEvents (a : Addressing) (entries : Nat) :
    SizeNotes entries (a.sizeEvents entries) := by
  unfold sizeEvents
  split
  · exact .none
  · next space _ =>
    split
    · exact .small space.toNat
    · split
      · exact .unreachable space.toNat
      · exact .none

private theorem sizeNotes_checkOutput (a : Addressing) (indices : Indices) (entries output : Nat) :
    SizeNotes entries (checkOutput a indices entries output).events := by
  cases hshape : (a.shapeOf indices.rows.size indices.cols.size entries).result with
  | error fault =>
    rw [result_shapeOf] at hshape
    rw [checkOutput, shapeOf, hshape]
    exact .none
  | ok shape =>
    rw [checkOutput_of_fits (fits_of_shapeOf_eq_ok hshape)]
    exact a.sizeNotes_sizeEvents entries

private theorem sizeNotes_bind {entries : Nat} {α : Type} {t : Traced α} {next : α → Traced Report}
    {fault : Fault} (h : SizeNotes entries t.events)
    (hnext : ∀ x, (next x).result = .error fault → (next x).events = [])
    (hfault : (t >>= next).result = .error fault) : SizeNotes entries (t >>= next).events := by
  cases hr : t.result with
  | error fault' =>
    rw [Traced.bind_of_error _ hr]
    exact h
  | ok x =>
    rw [Traced.bind_of_ok _ hr] at hfault ⊢
    rw [show (next x).events = [] from hnext x hfault, List.append_nil]
    exact h

private theorem events_bind_ofResult {α : Type} {r : Except Fault α} {next : α → Traced Report}
    {fault : Fault} (hnext : ∀ x, (next x).result = .error fault → (next x).events = [])
    (hfault : (Traced.ofResult r >>= next).result = .error fault) :
    (Traced.ofResult r >>= next).events = [] := by
  cases r with
  | error fault' => rfl
  | ok x => exact hnext x hfault

private theorem events_outcome_of_error (c : Comparison) {fault : Fault}
    (h : c.outcome.result = .error fault) : c.outcome.events = [] := by
  cases h

private theorem sizeNotes_validate {fault : Fault}
    (h : (a.validate indices codebook settings output).result = .error fault) :
    SizeNotes codebook.size (a.validate indices codebook settings output).events := by
  rw [validate_eq] at h ⊢
  refine sizeNotes_bind (a.sizeNotes_checkOutput ..) (fun _ ↦ ?_) h
  exact events_bind_ofResult fun _ ↦ events_outcome_of_error _

private theorem sizeNotes_validateWithScales {fault : Fault}
    (h : (a.validateWithScales indices codebook scales settings output).result = .error fault) :
    SizeNotes codebook.size
      (a.validateWithScales indices codebook scales settings output).events := by
  rw [validateWithScales_eq] at h ⊢
  refine sizeNotes_bind (a.sizeNotes_checkOutput ..) (fun _ ↦ ?_) h
  refine events_bind_ofResult fun _ ↦ ?_
  exact events_bind_ofResult fun _ ↦ events_outcome_of_error _

/-- The events of a validation, with or without scales, tell what its report tells: after the size
of the codebook they note skipped positions and mismatches by position, each kind up to its own
limit, and last the summary of the report. A validation that fails notes neither a position nor a
summary. -/
theorem events_tell_report (a : Addressing) (indices : Indices) (codebook scales : Array Single)
    (settings : Settings) (output : Array (Word f)) :
    (∀ report, (a.validate indices codebook settings output).result = .ok report →
      (Comparison.ofEntries a indices codebook settings output).Told report
        (a.validate indices codebook settings output).events) ∧
    (∀ report, (a.validateWithScales indices codebook scales settings output).result =
        .ok report →
      (Comparison.ofProducts a indices codebook scales settings output).Told report
        (a.validateWithScales indices codebook scales settings output).events) ∧
    (∀ fault, (a.validate indices codebook settings output).result = .error fault →
      SizeNotes codebook.size (a.validate indices codebook settings output).events) ∧
    ∀ fault, (a.validateWithScales indices codebook scales settings output).result =
        .error fault →
      SizeNotes codebook.size
        (a.validateWithScales indices codebook scales settings output).events := by
  refine ⟨fun report h ↦ ?_, fun report h ↦ ?_, fun _ ↦ sizeNotes_validate,
    fun _ ↦ sizeNotes_validateWithScales⟩
  · obtain ⟨hf, hout, hreserve, rfl⟩ := validate_eq_ok_iff.mp h
    rw [validate_eq_outcome hf hout hreserve]
    exact Comparison.told _ (a.sizeNotes_sizeEvents codebook.size)
  · obtain ⟨hf, hout, hscales, hreserve, rfl⟩ := validateWithScales_eq_ok_iff.mp h
    rw [validateWithScales_eq_outcome hf hout hscales hreserve]
    exact Comparison.told _ (a.sizeNotes_sizeEvents codebook.size)

/-- Of two skipped positions and two mismatches in turn a validation limited to one of each notes
the first two; the address of the first is beyond 64 bits. -/
theorem events_tell_report_in_turn :
    ∃ outcome report,
      outcome = (unbounded 1 2).validate ⟨#[0xffffffffffffffff, 0, 7, 0], #[1, 0, 0, 1]⟩
        #[.ofBits 0x3f800000, .ofBits 0x40000000] ⟨.ofBits 0x3c23d70a, 1⟩
        (Array.replicate 4 (Word.zero false) : Array Single) ∧
      outcome.result = .ok report ∧
      outcome.events.filter (·.level = .info) = [.finished 4 2 2 false] ∧
      outcome.events.filter (·.message = "codebook address out of range, skipping") =
        [.skipped ⟨0, 0xffffffffffffffff, 1, none, 2⟩] ∧
      outcome.events.filter (·.message = "result mismatch") =
        [.mismatch ⟨1, Single.toDouble (.ofBits 0x3f800000), Word.zero false, 0, 0, 0⟩] := by
  have hfits : (unbounded 1 2).Fits 4 4 2 := by decide
  have h := (events_tell_report (unbounded 1 2) ⟨#[0xffffffffffffffff, 0, 7, 0], #[1, 0, 0, 1]⟩
    #[.ofBits 0x3f800000, .ofBits 0x40000000] #[] ⟨.ofBits 0x3c23d70a, 1⟩
    (Array.replicate 4 (Word.zero false) : Array Single)).1 _
      (validate_eq_ok_iff.mpr ⟨hfits, rfl, by decide, rfl⟩)
  refine ⟨_, _, rfl, validate_eq_ok_iff.mpr ⟨hfits, rfl, by decide, rfl⟩, h.summary.trans ?_,
    h.skipped.trans ?_, h.mismatches.trans ?_⟩
  · decide +kernel
  · decide +kernel
  · decide +kernel

end Addressing

end IndexedCodebook
