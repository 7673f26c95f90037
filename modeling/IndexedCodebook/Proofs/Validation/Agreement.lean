import IndexedCodebook.Proofs.Validation.Exact

/-!
# Validation and acceptance agree

Accepting inputs stops at the lowest position whose indices do not resolve; validating an output
skips every such position and goes on. A validation is refused exactly for its lengths
(`LengthFault`); with lengths that pass it is stray if room for the samples cannot be reserved, and
otherwise gives a report (`FailsForLengths`). The report and the events tell what acceptance tells
of the same inputs: `AgreesWithAcceptance`, proved for both forms in
`validation_agrees_with_acceptance`.
-/

namespace IndexedCodebook

open Outcome

namespace Validation

/-- Why a validation fails: lengths that do not fit, else an output that is not as long as the
columns, else scales that are not one per group. -/
inductive LengthFault (a : Addressing) (indices : Indices) (entries output : Nat) :
    Option Nat → Fault → Prop
  | lengths {scales : Option Nat} {fault : Fault}
      (h : (a.shapeOf indices.rows.size indices.cols.size entries).result = .error fault) :
      LengthFault a indices entries output scales fault
  | output {scales : Option Nat} {shape : Shape}
      (h : (a.shapeOf indices.rows.size indices.cols.size entries).result = .ok shape)
      (hout : output ≠ indices.cols.size) :
      LengthFault a indices entries output scales
        (.shape (.outputLength output indices.cols.size))
  | scales {scales : Nat} {shape : Shape}
      (h : (a.shapeOf indices.rows.size indices.cols.size entries).result = .ok shape)
      (hout : output = indices.cols.size) (hscales : scales ≠ shape.groups) :
      LengthFault a indices entries output (some scales)
        (.shape (.scaleCount scales shape.groups))

/-- A validation is refused exactly for its lengths, and if these pass it is stray exactly if room
for the samples cannot be reserved. Neither a value nor an address makes it fail. -/
structure FailsForLengths (lengthFault : Fault → Prop) (settings : Settings)
    (result : Except Fault Report) : Prop where
  refused_iff : ∀ fault, fault ≠ .stray → (result = .error fault ↔ lengthFault fault)
  stray_iff : result = .error .stray ↔ (∀ fault, ¬ lengthFault fault) ∧ ¬ settings.Reservable

/-- Whether a position is skipped as out of range. -/
def skipsAt : Except Fault Finding → Bool
  | .ok (.unreachable _) => true
  | .ok .agrees | .ok (.differs _) | .error _ => false

/-- Whether a position is compared. -/
def comparesAt : Except Fault Finding → Bool
  | .ok .agrees | .ok (.differs _) => true
  | .ok (.unreachable _) | .error _ => false

/-- A report and its events tell what acceptance tells of the same inputs; `finding` is what the
validation finds at each position. -/
structure AgreesWithAcceptance (a : Addressing) (indices : Indices) (entries : Nat)
    (maxReported : UInt64) (finding : Nat → Except Fault Finding) (report : Report)
    (events : List Event) : Prop where
  checked : report.checked = indices.cols.size
  outOfRangeCount : report.outOfRangeCount =
    (List.range indices.cols.size).countP fun i ↦ skipsAt (finding i)
  outOfRangeCount_eq_zero_iff : report.outOfRangeCount = 0 ↔
    ∃ shape, (a.accept indices entries).result = .ok shape
  /-- Inputs that are not accepted are refused for a position. -/
  refused : ∀ fault, (a.accept indices entries).result = .error fault →
    ∃ cause, fault = .address cause
  /-- That position is the lowest that is skipped, and all below it are compared. -/
  lowest : ∀ fault, (a.accept indices entries).result = .error (.address fault) →
    fault.position < indices.cols.size ∧ skipsAt (finding fault.position) = true ∧
      ∀ i < fault.position, comparesAt (finding i) = true
  /-- The first note of a skipped position is of that position, with its address or, where the
  fault has the largest 64-bit number in place of a larger address, with none. -/
  noted : ∀ fault, (a.accept indices entries).result = .error (.address fault) →
    maxReported ≠ 0 →
    events.findSome? Event.skipped? = some
      { position := fault.position
        row := fault.row
        col := fault.col
        address :=
          if fault.row.toNat * a.colCardinality.toNat + fault.col.toNat < 2 ^ 64 then
            some fault.address
          else none
        entries }

namespace Comparison

variable {c : Comparison} {reference : Reference} {output : Array Double}

private theorem skipsAt_finding (c : Comparison) (i : Nat) :
    skipsAt (.ok (c.finding i)) = c.skips i ∧ comparesAt (.ok (c.finding i)) = !c.skips i := by
  unfold finding skips
  split
  · next h => exact ⟨h.symm, by rw [h]; rfl⟩
  · next h =>
    rw [Bool.not_eq_true] at h
    rw [h]
    split
    · exact ⟨rfl, rfl⟩
    · exact ⟨rfl, rfl⟩

/-- With lengths that fit, a position has a fault exactly if it does not resolve. -/
theorem faultAt_eq_none_iff_skips
    (hf : c.addressing.Fits c.indices.rows.size c.indices.cols.size c.entries) {i : Nat}
    (hi : i < c.indices.cols.size) :
    c.addressing.faultAt c.indices c.entries i = none ↔ c.skips i = false := by
  rw [Addressing.faultAt_eq hf hi, skips, row, col]
  cases c.addressing.resolve? c.entries (c.indices.rowAt c.addressing.groupSize.toNat i)
      (c.indices.colAt i) with
  | none => simp
  | some address => simp

private theorem lowest_skips_of_accept_eq_error (h : c.Describes reference output) {fault : Fault}
    (he : (c.addressing.accept c.indices c.entries).result = .error fault) :
    ∃ p < c.size, fault = .address (c.addressing.addressFault c.indices c.entries p) ∧
      c.skips p = true ∧ ∀ i < p, c.skips i = false := by
  obtain ⟨p, hp, hfault, hskips, hlow⟩ := Addressing.faultAt_of_accept_eq_error h.fits he
  rw [ne_eq, faultAt_eq_none_iff_skips h.fits hp, Bool.not_eq_false] at hskips
  refine ⟨p, by rw [h.size_eq]; exact hp, hfault, hskips, fun i hi ↦ ?_⟩
  exact (faultAt_eq_none_iff_skips h.fits (by omega)).mp (hlow i hi)

private theorem skippedAt_eq (c : Comparison) (i : Nat) :
    let fault := c.addressing.addressFault c.indices c.entries i
    c.skippedAt i =
      { position := fault.position
        row := fault.row
        col := fault.col
        address :=
          if fault.row.toNat * c.addressing.colCardinality.toNat + fault.col.toNat < 2 ^ 64 then
            some fault.address
          else none
        entries := c.entries } := by
  intro fault
  have haddress : address? fault.row fault.col c.addressing.colCardinality =
      if fault.row.toNat * c.addressing.colCardinality.toNat + fault.col.toNat < 2 ^ 64 then
        some fault.address
      else none := by
    rw [address?_eq_ite]
    split
    · next h =>
      exact congrArg (some ∘ UInt64.ofNat) (Nat.min_eq_left (Nat.le_sub_one_of_lt h)).symm
    · rfl
  rw [← haddress]
  rfl

/-- The notes of skipped positions are of the first positions that do not resolve. -/
theorem filterMap_skipped?_events (c : Comparison) :
    c.outcome.events.filterMap Event.skipped? =
      (((List.range c.size).filter c.skips).take c.settings.maxReported.toNat).map
        c.skippedAt := by
  have h := (Tally.notesSkipped_foldl c.settings.maxReported.toNat c.findings).skipped
  rw [filterMap_skipped?_findings, ← List.map_take] at h
  rw [outcome, List.filterMap_append, List.filterMap_cons_none rfl, List.filterMap_nil,
    List.append_nil]
  exact h

private theorem findSome?_skipped?_events {p : Nat} (hp : p < c.size) (hskips : c.skips p = true)
    (hlow : ∀ i < p, c.skips i = false) (hmax : c.settings.maxReported ≠ 0) :
    c.outcome.events.findSome? Event.skipped? = some (c.skippedAt p) := by
  have hfirst : (List.range c.size).find? c.skips = some p := by
    rw [List.find?_range_eq_some]
    exact ⟨hskips, List.mem_range.mpr hp, fun i hi ↦ by rw [hlow i hi]; rfl⟩
  have hpos : c.settings.maxReported.toNat ≠ 0 := fun h ↦ hmax (UInt64.toNat_inj.mp h)
  rw [← List.head?_filterMap, filterMap_skipped?_events, List.head?_map, List.head?_take,
    if_neg hpos, List.head?_filter, hfirst, Option.map_some]

/-- The report and the events of a comparison agree with acceptance. -/
theorem agreesWithAcceptance (h : c.Describes reference output) {events : List Event}
    (hevents : events.filterMap Event.skipped? = []) :
    AgreesWithAcceptance c.addressing c.indices c.entries c.settings.maxReported
      (findingAt c.addressing c.indices c.entries reference c.settings.tolerance.toDouble output)
      c.report (events ++ c.outcome.events) where
  checked := h.size_eq
  outOfRangeCount := by
    rw [outOfRangeCount_report_eq_countP, ← h.size_eq]
    apply List.countP_congr
    intro i hi
    rw [findingAt_eq_finding h (List.mem_range.mp hi), (c.skipsAt_finding i).1]
  outOfRangeCount_eq_zero_iff := by
    rw [outOfRangeCount_report_eq_countP, Addressing.accept_eq_ok_iff_faultAt, List.countP_eq_zero,
      h.size_eq]
    constructor
    · intro hall
      refine ⟨h.fits, fun i hi ↦ (faultAt_eq_none_iff_skips h.fits hi).mpr ?_⟩
      exact Bool.not_eq_true _ ▸ hall i (List.mem_range.mpr hi)
    · rintro ⟨-, hall⟩ i hi
      have hlt := List.mem_range.mp hi
      rw [(faultAt_eq_none_iff_skips h.fits hlt).mp (hall i hlt)]
      exact Bool.false_ne_true
  refused := by
    intro fault he
    obtain ⟨p, -, rfl, -⟩ := lowest_skips_of_accept_eq_error h he
    exact ⟨_, rfl⟩
  lowest := by
    intro fault he
    obtain ⟨p, hp, hfault, hskips, hlow⟩ := lowest_skips_of_accept_eq_error h he
    obtain rfl := Fault.address.inj hfault
    refine ⟨h.size_eq ▸ hp, ?_, fun i hi ↦ ?_⟩
    · have hfound := congrArg skipsAt (findingAt_eq_finding h hp)
      exact hfound.trans ((c.skipsAt_finding p).1.trans hskips)
    · have hlt : i < c.size := Nat.lt_trans hi hp
      rw [findingAt_eq_finding h hlt, (c.skipsAt_finding i).2, hlow i hi]
      rfl
  noted := by
    intro fault he hmax
    obtain ⟨p, hp, hfault, hskips, hlow⟩ := lowest_skips_of_accept_eq_error h he
    obtain rfl := Fault.address.inj hfault
    have hnone : events.findSome? Event.skipped? = none := by
      rw [← List.head?_filterMap, hevents, List.head?_nil]
    rw [List.findSome?_append, hnone, Option.none_or, findSome?_skipped?_events hp hskips hlow hmax]
    exact congrArg some (c.skippedAt_eq p)

end Comparison

end Validation

namespace Addressing

open Validation

variable {f : Format} {a : Addressing} {indices : Indices} {entries output : Nat}

private theorem filterMap_skipped?_sizeEvents (a : Addressing) (entries : Nat) :
    (a.sizeEvents entries).filterMap Event.skipped? = [] := by
  unfold sizeEvents
  split
  · rfl
  · split
    · rfl
    · split
      · rfl
      · rfl

/-- With lengths that fit, the check of an output compares its length with that of the columns, and
notes the size of the codebook alone. -/
theorem checkOutput_of_fits (hf : a.Fits indices.rows.size indices.cols.size entries)
    (output : Nat) :
    checkOutput a indices entries output =
      ⟨if output = indices.cols.size then .ok indices.rows.size
        else .error (.shape (.outputLength output indices.cols.size)), a.sizeEvents entries⟩ := by
  rw [checkOutput, shapeOf_eq hf, Traced.bind_of_ok _ rfl]
  by_cases hout : output = indices.cols.size
  · simp [hout, hf.rows_eq, Pure.pure]
  · simp [hout, Traced.fail]

private theorem checkOutput_eq (hf : a.Fits indices.rows.size indices.cols.size entries)
    (hout : output = indices.cols.size) :
    checkOutput a indices entries output = ⟨.ok indices.rows.size, a.sizeEvents entries⟩ := by
  rw [checkOutput_of_fits hf, if_pos hout]

/-- With lengths that pass and room for the samples, a validation gives the report of the comparison
with the entries, and its events come after a note on the size of the codebook. -/
theorem validate_eq_outcome {codebook : Array Single} {settings : Settings}
    {output : Array (Word f)} (hf : a.Fits indices.rows.size indices.cols.size codebook.size)
    (hout : output.size = indices.cols.size) (hreserve : settings.Reservable) :
    a.validate indices codebook settings output =
      ⟨.ok (Comparison.ofEntries a indices codebook settings output).report,
        a.sizeEvents codebook.size ++
          (Comparison.ofEntries a indices codebook settings output).outcome.events⟩ := by
  have hroom : (Traced.ofResult settings.reserve).result = .ok () :=
    Settings.reserve_eq_ok hreserve
  rw [validate_eq, checkOutput_eq hf hout, Traced.bind_of_ok _ rfl, Traced.bind_of_ok _ hroom]
  rfl

/-- With one scale per group, so does a validation with scales for the products. -/
theorem validateWithScales_eq_outcome {codebook scales : Array Single} {settings : Settings}
    {output : Array (Word f)} (hf : a.Fits indices.rows.size indices.cols.size codebook.size)
    (hout : output.size = indices.cols.size) (hscales : scales.size = indices.rows.size)
    (hreserve : settings.Reservable) :
    a.validateWithScales indices codebook scales settings output =
      ⟨.ok (Comparison.ofProducts a indices codebook scales settings output).report,
        a.sizeEvents codebook.size ++
          (Comparison.ofProducts a indices codebook scales settings output).outcome.events⟩ := by
  have hcount : (Traced.ofResult (checkScales scales.size indices.rows.size)).result = .ok () :=
    checkScales_eq_ok_iff.mpr hscales
  have hroom : (Traced.ofResult settings.reserve).result = .ok () :=
    Settings.reserve_eq_ok hreserve
  rw [validateWithScales_eq, checkOutput_eq hf hout, Traced.bind_of_ok _ rfl,
    Traced.bind_of_ok _ hcount, Traced.bind_of_ok _ hroom]
  rfl

private theorem checkOutput_eq_error_iff {fault : Fault} :
    (checkOutput a indices entries output).result = .error fault ↔
      LengthFault a indices entries output none fault := by
  rw [checkOutput, Traced.result_bind, bind_eq_error_iff]
  constructor
  · rintro (h | ⟨shape, hs, h⟩)
    · exact .lengths h
    · have helements : shape.elements = indices.cols.size := by rw [(shapeOf_eq_ok_iff.mp hs).2]
      rw [helements] at h
      split at h
      · next hout =>
        cases h
        exact .output hs hout
      · cases h
  · rintro (h | ⟨hs, hout⟩)
    · exact .inl h
    · next shape =>
      have helements : shape.elements = indices.cols.size := by rw [(shapeOf_eq_ok_iff.mp hs).2]
      refine .inr ⟨shape, hs, ?_⟩
      rw [helements, if_pos hout]
      rfl

/-- The checks of an output and of the number of scales fail for the lengths, the number of scales
included. -/
theorem checkOutput_checkScales_eq_error_iff {scales : Nat} {fault : Fault} :
    (checkOutput a indices entries output).result >>= checkScales scales = .error fault ↔
      LengthFault a indices entries output (some scales) fault := by
  rw [bind_eq_error_iff, checkOutput_eq_error_iff]
  constructor
  · rintro (h | ⟨groups, hg, h⟩)
    · cases h with
      | lengths h => exact .lengths h
      | output h hout => exact .output h hout
    · obtain ⟨hf, hout, rfl⟩ := checkOutput_eq_ok_iff.mp hg
      obtain ⟨hscales, rfl⟩ := checkScales_eq_error_iff.mp h
      have hshape := shapeOf_eq_ok_iff.mpr ⟨hf, rfl⟩
      rw [← hf.rows_eq] at hshape
      exact .scales hshape hout hscales
  · intro h
    cases h with
    | lengths h => exact .inl (.lengths h)
    | output h hout => exact .inl (.output h hout)
    | @scales _ shape h hout hscales =>
      obtain ⟨hf, rfl⟩ := shapeOf_eq_ok_iff.mp h
      rw [← hf.rows_eq] at hscales ⊢
      exact .inr ⟨indices.rows.size, checkOutput_eq_ok_iff.mpr ⟨hf, hout, rfl⟩,
        checkScales_eq_error_iff.mpr ⟨hscales, rfl⟩⟩

private theorem LengthFault.ne_stray {scales : Option Nat} {fault : Fault}
    (h : LengthFault a indices entries output scales fault) : fault ≠ .stray := by
  cases h with
  | lengths h =>
    rintro rfl
    rw [result_shapeOf] at h
    exact checkLengths_ne_stray a _ _ _ h
  | output h hout => rintro ⟨⟩
  | scales h hout hscales => rintro ⟨⟩

private theorem failsForLengths {α : Type} {checks : Except Fault α} {lengthFault : Fault → Prop}
    {report : Report} {settings : Settings}
    (hchecks : ∀ fault, checks = .error fault ↔ lengthFault fault)
    (hstray : ∀ fault, lengthFault fault → fault ≠ .stray) :
    FailsForLengths lengthFault settings
      (checks >>= fun _ ↦ settings.reserve >>= fun _ ↦ .ok report) := by
  cases checks with
  | error fault =>
    have hfault := (hchecks fault).mp rfl
    rw [error_bind]
    refine ⟨fun e _ ↦ ?_, fun h ↦ ?_, fun h ↦ absurd hfault (h.1 fault)⟩
    · rw [← hchecks e, Except.error.injEq, Except.error.injEq]
    · exact absurd (Except.error.inj h) (hstray fault hfault)
  | ok x =>
    have hpass : ∀ fault, ¬ lengthFault fault := fun fault h ↦ by cases (hchecks fault).mpr h
    rw [ok_bind]
    refine ⟨fun fault hne ↦ iff_of_false (fun h ↦ ?_) (hpass fault), ?_⟩
    · rw [bind_ok_eq_error_iff, Settings.reserve_eq_error_iff] at h
      exact hne h.1
    · rw [bind_ok_eq_error_iff, Settings.reserve_eq_error_iff]
      exact and_congr_left' (iff_of_true rfl hpass)

/-- A validation is refused exactly for its lengths. -/
theorem failsForLengths_validate (a : Addressing) (indices : Indices) (codebook : Array Single)
    (settings : Settings) (output : Array (Word f)) :
    FailsForLengths (LengthFault a indices codebook.size output.size none) settings
      (a.validate indices codebook settings output).result := by
  rw [result_validate]
  exact failsForLengths (fun _ ↦ checkOutput_eq_error_iff) fun _ ↦ LengthFault.ne_stray

/-- A validation with scales is refused exactly for its lengths, the number of scales included. -/
theorem failsForLengths_validateWithScales (a : Addressing) (indices : Indices)
    (codebook scales : Array Single) (settings : Settings) (output : Array (Word f)) :
    FailsForLengths (LengthFault a indices codebook.size output.size (some scales.size)) settings
      (a.validateWithScales indices codebook scales settings output).result := by
  rw [result_validateWithScales]
  exact failsForLengths (fun _ ↦ checkOutput_checkScales_eq_error_iff) fun _ ↦
    LengthFault.ne_stray

private theorem accept_eq_error_of_shapeOf {fault : Fault}
    (h : (a.shapeOf indices.rows.size indices.cols.size entries).result = .error fault) :
    (a.accept indices entries).result = .error fault := by
  rw [accept, Traced.result_bind, h, error_bind]

/-- A validation, with or without scales, is refused exactly for its lengths, and lengths that do
not fit are refused as acceptance refuses them. A validation that gives a report agrees with
acceptance: it skips nothing exactly if the inputs are accepted, and otherwise the fault is that of
the first position it skips. -/
theorem validation_agrees_with_acceptance (a : Addressing) (indices : Indices)
    (codebook scales : Array Single) (settings : Settings) (output : Array (Word f)) :
    FailsForLengths (LengthFault a indices codebook.size output.size none) settings
      (a.validate indices codebook settings output).result ∧
    FailsForLengths (LengthFault a indices codebook.size output.size (some scales.size)) settings
      (a.validateWithScales indices codebook scales settings output).result ∧
    (∀ fault,
      (a.shapeOf indices.rows.size indices.cols.size codebook.size).result = .error fault →
        (a.accept indices codebook.size).result = .error fault) ∧
    (∀ report, (a.validate indices codebook settings output).result = .ok report →
      AgreesWithAcceptance a indices codebook.size settings.maxReported
        (findingAt a indices codebook.size (.entry codebook) settings.tolerance.toDouble
          (widen output))
        report (a.validate indices codebook settings output).events) ∧
    ∀ report, (a.validateWithScales indices codebook scales settings output).result =
        .ok report →
      AgreesWithAcceptance a indices codebook.size settings.maxReported
        (findingAt a indices codebook.size (.scaled codebook scales) settings.tolerance.toDouble
          (widen output))
        report (a.validateWithScales indices codebook scales settings output).events := by
  refine ⟨failsForLengths_validate .., failsForLengths_validateWithScales ..,
    fun _ ↦ accept_eq_error_of_shapeOf, fun report h ↦ ?_, fun report h ↦ ?_⟩
  · obtain ⟨hf, hout, hreserve, rfl⟩ := validate_eq_ok_iff.mp h
    rw [validate_eq_outcome hf hout hreserve]
    exact (Comparison.ofEntries a indices codebook settings output).agreesWithAcceptance
      (describes_ofEntries settings hf hout) (filterMap_skipped?_sizeEvents a codebook.size)
  · obtain ⟨hf, hout, hscales, hreserve, rfl⟩ := validateWithScales_eq_ok_iff.mp h
    rw [validateWithScales_eq_outcome hf hout hscales hreserve]
    exact (Comparison.ofProducts a indices codebook scales settings output).agreesWithAcceptance
      (describes_ofProducts settings hf hout hscales)
      (filterMap_skipped?_sizeEvents a codebook.size)

/-- Of three positions out of range the lowest has an address beyond 64 bits; a validation limited
to one note notes that one, without an address. -/
theorem validation_agrees_with_acceptance_overflow :
    ∃ outcome report,
      outcome = (unbounded 1 2).validate ⟨#[1, 0xffffffffffffffff, 0, 9], #[1, 1, 2, 0]⟩
        (Array.replicate 4 (Word.zero false)) ⟨Word.zero false, 1⟩
        (Array.replicate 4 (Word.zero false) : Array Single) ∧
      ((unbounded 1 2).accept ⟨#[1, 0xffffffffffffffff, 0, 9], #[1, 1, 2, 0]⟩ 4).result =
        .error (.address ⟨1, 0xffffffffffffffff, 1, 0xffffffffffffffff, 4⟩) ∧
      outcome.result = .ok report ∧ report.outOfRangeCount ≠ 0 ∧
      outcome.events.findSome? Event.skipped? = some ⟨1, 0xffffffffffffffff, 1, none, 4⟩ := by
  have haccept :
      ((unbounded 1 2).accept ⟨#[1, 0xffffffffffffffff, 0, 9], #[1, 1, 2, 0]⟩ 4).result =
        .error (.address ⟨1, 0xffffffffffffffff, 1, 0xffffffffffffffff, 4⟩) := rfl
  have hfits : (unbounded 1 2).Fits 4 4 4 := by decide
  have h := (validation_agrees_with_acceptance (unbounded 1 2)
    ⟨#[1, 0xffffffffffffffff, 0, 9], #[1, 1, 2, 0]⟩ (Array.replicate 4 (Word.zero false)) #[]
    ⟨Word.zero false, 1⟩ (Array.replicate 4 (Word.zero false) : Array Single)).2.2.2.1 _
      (validate_eq_ok_iff.mpr ⟨hfits, rfl, by decide, rfl⟩)
  refine ⟨_, _, rfl, haccept, validate_eq_ok_iff.mpr ⟨hfits, rfl, by decide, rfl⟩,
    fun hzero ↦ ?_, h.noted _ haccept (by decide)⟩
  obtain ⟨shape, hshape⟩ := h.outOfRangeCount_eq_zero_iff.mp hzero
  cases haccept.symm.trans hshape

end Addressing

end IndexedCodebook
