import IndexedCodebook.Validation.Compare

/-!
# What a tally holds

A tally counts the findings of each kind and keeps the first mismatches. `Tally.Summarizes` is the
invariant that ties it to the findings so far; one finding preserves it (`Summarizes.add`), so the
tally of all findings has it (`summarizes_foldl`). The limit on the samples limits no count. Its
events note the first skipped positions in the same way (`notesSkipped_foldl`).
-/

namespace IndexedCodebook

/-- The skipped position that an event notes. -/
def Event.skipped? : Event → Option Skipped
  | skipped s => some s
  | smallCodebook .. | unreachableEntries .. | dequantizing .. | mismatch _ | finished .. => none

namespace Validation

namespace Finding

/-- The mismatch that a finding reports. -/
def mismatch? : Finding → Option Mismatch
  | differs m => some m
  | agrees | unreachable _ => none

/-- The skipped position that a finding reports. -/
def skipped? : Finding → Option Skipped
  | unreachable s => some s
  | agrees | differs _ => none

end Finding

namespace Tally

/-- The counts are those of all findings, and the samples are the first mismatches. -/
structure Summarizes (maxReported : Nat) (findings : List Finding) (t : Tally) : Prop where
  mismatchCount : t.mismatchCount = (findings.filterMap Finding.mismatch?).length
  outOfRangeCount : t.outOfRangeCount = (findings.filterMap Finding.skipped?).length
  samples : t.samples.toList = (findings.filterMap Finding.mismatch?).take maxReported

variable {maxReported : Nat} {findings : List Finding} {t : Tally}

private theorem summarizes_empty (maxReported : Nat) : Summarizes maxReported [] {} :=
  ⟨rfl, rfl, List.take_nil.symm⟩

/-- A mismatch is counted, and kept while there is room. -/
theorem add_differs (maxReported : Nat) (t : Tally) (m : Mismatch) :
    t.add maxReported (.differs m) =
      { t with
        mismatchCount := t.mismatchCount + 1
        samples := if t.samples.size < maxReported then t.samples.push m else t.samples
        events :=
          if t.samples.size < maxReported then t.events.push (.mismatch m) else t.events } := by
  simp only [add]
  split
  · rfl
  · rfl

/-- A skipped position is counted, and noted while there is room. -/
theorem add_unreachable (maxReported : Nat) (t : Tally) (s : Skipped) :
    t.add maxReported (.unreachable s) =
      { t with
        outOfRangeCount := t.outOfRangeCount + 1
        events :=
          if t.outOfRangeCount < maxReported then t.events.push (.skipped s) else t.events } := by
  simp only [add]
  split
  · rfl
  · rfl

private theorem take_concat {α : Type} (xs : List α) (x : α) (n : Nat) :
    (xs ++ [x]).take n = if xs.length < n then xs.take n ++ [x] else xs.take n := by
  split
  · next h =>
    rw [List.take_of_length_le (by rw [List.length_append, List.length_singleton]; omega),
      List.take_of_length_le (by omega)]
  · next h => rw [List.take_append_of_le_length (by omega)]

private theorem Summarizes.samples_push (h : Summarizes maxReported findings t) (m : Mismatch) :
    (if t.samples.size < maxReported then t.samples.push m else t.samples).toList =
      (findings.filterMap Finding.mismatch? ++ [m]).take maxReported := by
  have hs := h.samples
  have hl := congrArg List.length hs
  rw [Array.length_toList, List.length_take] at hl
  rw [take_concat, ← hs]
  by_cases hlt : t.samples.size < maxReported
  · rw [if_pos hlt, if_pos (by omega), Array.toList_push]
  · rw [if_neg hlt, if_neg (by omega)]

/-- A tally goes on summarizing when it takes in one more finding. -/
theorem Summarizes.add (h : Summarizes maxReported findings t) (finding : Finding) :
    Summarizes maxReported (findings ++ [finding]) (t.add maxReported finding) := by
  cases finding with
  | agrees =>
    constructor
    · rw [List.filterMap_append, List.length_append]
      exact h.mismatchCount
    · rw [List.filterMap_append, List.length_append]
      exact h.outOfRangeCount
    · rw [List.filterMap_append, List.filterMap_cons_none rfl, List.filterMap_nil, List.append_nil]
      exact h.samples
  | differs m =>
    rw [add_differs]
    constructor
    · rw [List.filterMap_append, List.length_append, h.mismatchCount]
      rfl
    · rw [List.filterMap_append, List.length_append]
      exact h.outOfRangeCount
    · rw [List.filterMap_append]
      exact h.samples_push m
  | unreachable s =>
    rw [add_unreachable]
    constructor
    · rw [List.filterMap_append, List.length_append]
      exact h.mismatchCount
    · rw [List.filterMap_append, List.length_append, h.outOfRangeCount]
      rfl
    · rw [List.filterMap_append, List.filterMap_cons_none rfl, List.filterMap_nil, List.append_nil]
      exact h.samples

/-- What an empty tally has of no findings and one more finding preserves, the tally of some
findings has of them. -/
theorem foldl_add_of_step {P : List Finding → Tally → Prop} (hempty : P [] {})
    (hstep : ∀ findings t, P findings t → ∀ finding,
      P (findings ++ [finding]) (t.add maxReported finding)) (findings : List Finding) :
    P findings (findings.foldl (Tally.add maxReported) {}) := by
  have hrun : ∀ more before t, P before t →
      P (before ++ more) (more.foldl (Tally.add maxReported) t) := by
    intro more
    induction more with
    | nil =>
      intro before t h
      simpa using h
    | cons finding more ih =>
      intro before t h
      have hrest := ih (before ++ [finding]) (t.add maxReported finding) (hstep before t h finding)
      rwa [List.append_assoc, List.singleton_append] at hrest
  exact hrun findings [] {} hempty

/-- The tally of some findings summarizes them. -/
theorem summarizes_foldl (maxReported : Nat) (findings : List Finding) :
    Summarizes maxReported findings (findings.foldl (Tally.add maxReported) {}) :=
  foldl_add_of_step (summarizes_empty maxReported) (fun _ _ h ↦ h.add) findings

/-- The tally summarizes the findings, and its events note the first skipped positions. -/
structure NotesSkipped (maxReported : Nat) (findings : List Finding) (t : Tally) : Prop where
  summarizes : Summarizes maxReported findings t
  skipped : t.events.toList.filterMap Event.skipped? =
    (findings.filterMap Finding.skipped?).take maxReported

private theorem filterMap_skipped?_push_mismatch (t : Tally) (m : Mismatch) :
    (if t.samples.size < maxReported then t.events.push (.mismatch m)
      else t.events).toList.filterMap Event.skipped? =
      t.events.toList.filterMap Event.skipped? := by
  split
  · rw [Array.toList_push, List.filterMap_append, List.filterMap_cons_none rfl, List.filterMap_nil,
      List.append_nil]
  · rfl

private theorem NotesSkipped.skipped_push (h : NotesSkipped maxReported findings t) (s : Skipped) :
    (if t.outOfRangeCount < maxReported then t.events.push (.skipped s)
      else t.events).toList.filterMap Event.skipped? =
      (findings.filterMap Finding.skipped? ++ [s]).take maxReported := by
  rw [take_concat, ← h.skipped, ← h.summarizes.outOfRangeCount]
  split
  · rw [Array.toList_push, List.filterMap_append]
    rfl
  · rfl

/-- A tally goes on noting the first skipped positions when it takes in one more finding. -/
theorem NotesSkipped.add (h : NotesSkipped maxReported findings t) (finding : Finding) :
    NotesSkipped maxReported (findings ++ [finding]) (t.add maxReported finding) := by
  refine ⟨h.summarizes.add finding, ?_⟩
  rw [List.filterMap_append]
  cases finding with
  | agrees =>
    rw [List.filterMap_cons_none rfl, List.filterMap_nil, List.append_nil]
    exact h.skipped
  | differs m =>
    rw [List.filterMap_cons_none rfl, List.filterMap_nil, List.append_nil, add_differs]
    exact (filterMap_skipped?_push_mismatch t m).trans h.skipped
  | unreachable s =>
    rw [add_unreachable]
    exact h.skipped_push s

/-- The tally of some findings notes the first skipped positions among them. -/
theorem notesSkipped_foldl (maxReported : Nat) (findings : List Finding) :
    NotesSkipped maxReported findings (findings.foldl (Tally.add maxReported) {}) :=
  foldl_add_of_step ⟨summarizes_empty maxReported, List.take_nil.symm⟩ (fun _ _ h ↦ h.add) findings

end Tally

end Validation

end IndexedCodebook
