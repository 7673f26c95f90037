import IndexedCodebook.Proofs.Dequantize
import IndexedCodebook.Validation.Compare

/-!
# What a validation compares

A `Comparison` has a reference value and a value for every position. Once its lengths have passed
and room for its samples is reserved, a validation never fails: its outcome is that of its
comparison (`validate_eq` and `validateWithScales_eq`), which takes the findings of all positions in
order.
-/

namespace IndexedCodebook

open Outcome

namespace Validation

/-- What a validation compares, position by position. -/
structure Comparison where
  addressing : Addressing
  indices : Indices
  /-- The length of the codebook. -/
  entries : Nat
  settings : Settings
  /-- The length of the output. -/
  size : Nat
  /-- The reference value of a position that reaches an entry. -/
  expected : Nat → Double
  /-- The value of a position. -/
  actual : Nat → Double

namespace Comparison

/-- The row index of a position. -/
def row (c : Comparison) (i : Nat) : UInt64 := c.indices.rowAt c.addressing.groupSize.toNat i

/-- The column index of a position. -/
def col (c : Comparison) (i : Nat) : UInt64 := c.indices.colAt i

/-- The exact address of a position. -/
def address (c : Comparison) (i : Nat) : Nat := c.addressing.addressAt c.indices i

/-- The indices of a position reach an entry. -/
def Reached (c : Comparison) (i : Nat) : Prop := c.addressing.ReachesAt c.indices c.entries i

/-- The value of a position is within the tolerance. -/
def Agrees (c : Comparison) (i : Nat) : Prop :=
  within c.settings.tolerance.toDouble (c.expected i) (c.actual i) = true

/-- A position reaches an entry, and its value is not within the tolerance. -/
def Mismatched (c : Comparison) (i : Nat) : Prop := c.Reached i ∧ ¬ c.Agrees i

instance (c : Comparison) (i : Nat) : Decidable (c.Reached i) :=
  inferInstanceAs (Decidable (c.addressing.ReachesAt c.indices c.entries i))

instance (c : Comparison) (i : Nat) : Decidable (c.Agrees i) :=
  inferInstanceAs (Decidable (_ = true))

instance (c : Comparison) (i : Nat) : Decidable (c.Mismatched i) :=
  inferInstanceAs (Decidable (_ ∧ ¬ _))

/-- A position as a mismatch. -/
def mismatchAt (c : Comparison) (i : Nat) : Mismatch :=
  ⟨i, c.expected i, c.actual i, c.row i, c.col i, .ofNat (c.address i)⟩

/-- A position as one that is skipped. -/
def skippedAt (c : Comparison) (i : Nat) : Skipped :=
  ⟨i, c.row i, c.col i, address? (c.row i) (c.col i) c.addressing.colCardinality, c.entries⟩

/-- What a position shows. -/
def finding (c : Comparison) (i : Nat) : Finding :=
  if (c.addressing.resolve? c.entries (c.row i) (c.col i)).isNone then
    .unreachable (c.skippedAt i)
  else if c.Agrees i then .agrees
  else .differs (c.mismatchAt i)

/-- What all positions show, in order. -/
def findings (c : Comparison) : List Finding := (List.range c.size).map c.finding

/-- The tally of all findings. -/
def tally (c : Comparison) : Tally :=
  c.findings.foldl (Tally.add c.settings.maxReported.toNat) {}

/-- The report on all findings. -/
def report (c : Comparison) : Report := c.tally.report c.size c.settings.tolerance

/-- The report, noted with the events of the tally and a summary. -/
def outcome (c : Comparison) : Traced Report :=
  ⟨.ok c.report, c.tally.events.toList ++
    [.finished c.report.checked c.report.mismatchCount c.report.outOfRangeCount c.report.passed]⟩

variable {f : Format}

/-- The comparison of an output with the entries of a codebook. -/
def ofEntries (a : Addressing) (indices : Indices) (codebook : Array Single) (settings : Settings)
    (output : Array (Word f)) : Comparison where
  addressing := a
  indices := indices
  entries := codebook.size
  settings := settings
  size := output.size
  expected i := (a.entryAt indices codebook i).toDouble
  actual i := (output.getD i (Word.zero false)).convert binary64

/-- The comparison of an output with the products of entries and scales. -/
def ofProducts (a : Addressing) (indices : Indices) (codebook scales : Array Single)
    (settings : Settings) (output : Array (Word f)) : Comparison where
  addressing := a
  indices := indices
  entries := codebook.size
  settings := settings
  size := output.size
  expected i := (a.entryAt indices codebook i).toDouble.mul (a.scaleAt scales i).toDouble
  actual i := (output.getD i (Word.zero false)).convert binary64

variable {c d : Comparison}

/-- Comparisons with the same settings that find the same at every position have the same tally. -/
theorem tally_congr_finding (hsize : c.size = d.size) (hsettings : c.settings = d.settings)
    (hfinding : ∀ i < c.size, c.finding i = d.finding i) : c.tally = d.tally := by
  have hfindings : c.findings = d.findings := by
    rw [findings, findings, ← hsize]
    exact List.map_congr_left fun i hi ↦ hfinding i (List.mem_range.mp hi)
  rw [tally, tally, hfindings, hsettings]

private theorem judge_eq_finding {reference : Reference} {i : Nat}
    (href : ∀ address : UInt64, address.toNat = c.address i → address.toNat < c.entries →
      reference (i / c.addressing.groupSize.toNat) address = .ok (some (c.expected i))) :
    judge c.addressing c.entries reference c.settings.tolerance.toDouble i (c.row i) (c.col i)
      (c.actual i) = .ok (c.finding i) := by
  cases hs : c.addressing.resolve? c.entries (c.row i) (c.col i) with
  | none =>
    rw [judge, finding, hs]
    rfl
  | some address =>
    obtain ⟨hr, he⟩ := Addressing.resolve?_eq_some_iff.mp hs
    have hlt : address.toNat < c.entries := he ▸ hr.address_lt
    have hm : (⟨i, c.expected i, c.actual i, c.row i, c.col i, address⟩ : Mismatch) =
        c.mismatchAt i := by
      rw [mismatchAt, ← show address.toNat = c.address i from he, UInt64.ofNat_toNat]
    simp only [judge, finding, hs, href address he hlt, ok_bind, hm, Option.isNone_some,
      Bool.false_eq_true, if_false]
    by_cases ha : c.Agrees i
    · rw [if_pos ha]
      exact if_pos ha
    · rw [if_neg ha]
      exact if_neg ha

/-- The lengths of a comparison fit, and an output and some reference values are those that it
compares. -/
structure Describes (c : Comparison) (reference : Reference) (output : Array Double) : Prop where
  fits : c.addressing.Fits c.indices.rows.size c.indices.cols.size c.entries
  size_eq : c.size = c.indices.cols.size
  size_output : output.size = c.size
  output_eq : ∀ i < c.size, output[i]? = some (c.actual i)
  reference_eq : ∀ i < c.size, ∀ address : UInt64, address.toNat = c.address i →
    address.toNat < c.entries →
    reference (i / c.addressing.groupSize.toNat) address = .ok (some (c.expected i))

variable {reference : Reference} {output : Array Double}

/-- A position of an output shows what the comparison finds there. -/
theorem findingAt_eq_finding (h : c.Describes reference output) {i : Nat} (hi : i < c.size) :
    findingAt c.addressing c.indices c.entries reference c.settings.tolerance.toDouble output i =
      .ok (c.finding i) := by
  rw [findingAt, Addressing.pairAt_eq_ok h.fits (h.size_eq ▸ hi), ok_bind, Lookup.element,
    h.output_eq i hi]
  exact judge_eq_finding (h.reference_eq i hi)

/-- Inspecting the output of a comparison has its outcome, once room is reserved. -/
theorem inspect_eq (h : c.Describes reference output) :
    inspect c.addressing c.indices c.entries reference c.settings output =
      Traced.ofResult c.settings.reserve >>= fun _ ↦ c.outcome := by
  have hscan : scan c.addressing c.indices c.entries reference c.settings output =
      .ok c.tally := by
    rw [scan, h.size_output, tally, findings, List.foldl_map]
    apply foldlM_eq_ok
    intro t i hi
    rw [findingAt_eq_finding h (List.mem_range.mp hi), ok_bind, pure_eq_ok]
  rw [inspect, hscan, h.size_output]
  rfl

end Comparison

namespace Settings

variable {s : Settings}

/-- Room is reserved if a sequence can hold all samples. -/
theorem reserve_eq_ok (h : s.Reservable) : s.reserve = .ok () := if_pos h

/-- Otherwise the reservation is stray. -/
theorem reserve_eq_error (h : ¬ s.Reservable) : s.reserve = .error .stray := if_neg h

/-- Room is reserved exactly if a sequence can hold all samples. -/
theorem reserve_eq_ok_iff {u : Unit} : s.reserve = .ok u ↔ s.Reservable := by
  by_cases h : s.Reservable
  · exact iff_of_true (reserve_eq_ok h) h
  · rw [reserve_eq_error h]
    exact iff_of_false (by rintro ⟨⟩) h

/-- The reservation is stray exactly if a sequence cannot hold all samples, and never refused. -/
theorem reserve_eq_error_iff {fault : Fault} :
    s.reserve = .error fault ↔ fault = .stray ∧ ¬ s.Reservable := by
  by_cases h : s.Reservable
  · rw [reserve_eq_ok h]
    exact iff_of_false (by rintro ⟨⟩) fun hn ↦ hn.2 h
  · rw [reserve_eq_error h, Except.error.injEq, and_iff_left h, eq_comm]

end Settings

end Validation

namespace Addressing

open Validation

variable {f : Format}

/-- An output that passes the check of lengths has lengths that fit, and is as long as the columns.
The check gives the number of groups. -/
theorem checkOutput_eq_ok_iff {a : Addressing} {indices : Indices} {entries output groups : Nat} :
    (checkOutput a indices entries output).result = .ok groups ↔
      a.Fits indices.rows.size indices.cols.size entries ∧ output = indices.cols.size ∧
        groups = indices.rows.size := by
  rw [checkOutput, Traced.result_bind, shapeOf, Traced.result_bind, Traced.result_ofResult]
  constructor
  · intro h
    obtain ⟨shape, hs, hrest⟩ := bind_eq_ok_iff.mp h
    obtain ⟨shape', hl, hemit⟩ := bind_eq_ok_iff.mp hs
    cases hemit
    obtain ⟨hf, rfl⟩ := checkLengths_eq_ok_iff.mp hl
    split at hrest
    · cases hrest
    · next ho =>
      cases hrest
      exact ⟨hf, Decidable.not_not.mp ho, hf.rows_eq.symm⟩
  · rintro ⟨hf, rfl, rfl⟩
    rw [checkLengths_eq_ok_iff.mpr ⟨hf, rfl⟩, ok_bind]
    simp [hf.rows_eq]

private theorem getElem?_widen {output : Array (Word f)} {i : Nat} (h : i < output.size) :
    (widen output)[i]? = some ((output.getD i (Word.zero false)).convert binary64) := by
  simp [widen, h]

/-- With lengths that pass, a validation compares the output with the entries. -/
theorem describes_ofEntries {a : Addressing} {indices : Indices} {codebook : Array Single}
    {output : Array (Word f)} (settings : Settings)
    (hf : a.Fits indices.rows.size indices.cols.size codebook.size)
    (hout : output.size = indices.cols.size) :
    (Comparison.ofEntries a indices codebook settings output).Describes (.entry codebook)
      (widen output) where
  fits := hf
  size_eq := hout
  size_output := Array.size_map
  output_eq i hi := getElem?_widen hi
  reference_eq := by
    intro i hi address he hlt
    have he : address.toNat = a.addressAt indices i := he
    rw [Reference.entry, he, getElem?_addressAt (he ▸ hlt)]
    rfl

/-- With lengths that pass and a scale for each group, a validation with scales compares the output
with the products of entries and scales. -/
theorem describes_ofProducts {a : Addressing} {indices : Indices} {codebook scales : Array Single}
    {output : Array (Word f)} (settings : Settings)
    (hf : a.Fits indices.rows.size indices.cols.size codebook.size)
    (hout : output.size = indices.cols.size) (hscales : scales.size = indices.rows.size) :
    (Comparison.ofProducts a indices codebook scales settings output).Describes
      (.scaled codebook scales) (widen output) where
  fits := hf
  size_eq := hout
  size_output := Array.size_map
  output_eq i hi := getElem?_widen hi
  reference_eq := by
    intro i hi address he hlt
    have hgroup : i / a.groupSize.toNat < scales.size := by
      rw [hscales]
      exact hf.div_groupSize_lt (hout ▸ hi)
    have he : address.toNat = a.addressAt indices i := he
    rw [Reference.scaled, he, getElem?_addressAt (he ▸ hlt)]
    show (Lookup.element scales (i / a.groupSize.toNat) >>= _) = _
    rw [Lookup.element_eq_ok hgroup (Word.zero false)]
    rfl

/-- After its checks and the reservation, a validation has the outcome of comparing the output with
the entries. -/
theorem validate_eq (a : Addressing) (indices : Indices) (codebook : Array Single)
    (settings : Settings) (output : Array (Word f)) :
    a.validate indices codebook settings output =
      checkOutput a indices codebook.size output.size >>= fun _ ↦
        Traced.ofResult settings.reserve >>= fun _ ↦
          (Comparison.ofEntries a indices codebook settings output).outcome := by
  apply Traced.bind_congr
  intro groups hg
  obtain ⟨hf, hout, -⟩ := checkOutput_eq_ok_iff.mp hg
  -- named first: the comparison cannot be read off the goal
  have h := Comparison.inspect_eq (describes_ofEntries settings hf hout)
  exact h

/-- After its checks and the reservation, a validation with scales has the outcome of comparing the
output with the products of entries and scales. -/
theorem validateWithScales_eq (a : Addressing) (indices : Indices)
    (codebook scales : Array Single) (settings : Settings) (output : Array (Word f)) :
    a.validateWithScales indices codebook scales settings output =
      checkOutput a indices codebook.size output.size >>= fun groups ↦
        Traced.ofResult (checkScales scales.size groups) >>= fun _ ↦
          Traced.ofResult settings.reserve >>= fun _ ↦
            (Comparison.ofProducts a indices codebook scales settings output).outcome := by
  apply Traced.bind_congr
  intro groups hg
  obtain ⟨hf, hout, rfl⟩ := checkOutput_eq_ok_iff.mp hg
  apply Traced.bind_congr
  intro _ hs
  have h := Comparison.inspect_eq
    (describes_ofProducts settings hf hout (checkScales_eq_ok_iff.mp hs))
  exact h

/-- A validation checks the output, reserves room for the samples and gives the report of the
comparison with the entries. -/
theorem result_validate (a : Addressing) (indices : Indices) (codebook : Array Single)
    (settings : Settings) (output : Array (Word f)) :
    (a.validate indices codebook settings output).result =
      (checkOutput a indices codebook.size output.size).result >>= fun _ ↦
        settings.reserve >>= fun _ ↦
          .ok (Comparison.ofEntries a indices codebook settings output).report := by
  simp only [validate_eq, Traced.result_bind, Traced.result_ofResult]
  rfl

/-- A validation with scales checks the output and the number of scales, reserves room for the
samples and gives the report of the comparison with the products. -/
theorem result_validateWithScales (a : Addressing) (indices : Indices)
    (codebook scales : Array Single) (settings : Settings) (output : Array (Word f)) :
    (a.validateWithScales indices codebook scales settings output).result =
      ((checkOutput a indices codebook.size output.size).result >>= checkScales scales.size) >>=
        fun _ ↦ settings.reserve >>= fun _ ↦
          .ok (Comparison.ofProducts a indices codebook scales settings output).report := by
  simp only [validateWithScales_eq, Traced.result_bind, Traced.result_ofResult, bind_assoc]
  rfl

/-- A validation succeeds exactly if the lengths fit, the output is as long as the columns and room
for the samples can be reserved, and gives the report of the comparison with the entries. -/
theorem validate_eq_ok_iff {a : Addressing} {indices : Indices} {codebook : Array Single}
    {settings : Settings} {output : Array (Word f)} {report : Report} :
    (a.validate indices codebook settings output).result = .ok report ↔
      a.Fits indices.rows.size indices.cols.size codebook.size ∧
        output.size = indices.cols.size ∧ settings.Reservable ∧
        report = (Comparison.ofEntries a indices codebook settings output).report := by
  simp only [result_validate, bind_eq_ok_iff, Settings.reserve_eq_ok_iff, Except.ok.injEq]
  constructor
  · rintro ⟨groups, hg, _, hreserve, rfl⟩
    obtain ⟨hf, hout, -⟩ := checkOutput_eq_ok_iff.mp hg
    exact ⟨hf, hout, hreserve, rfl⟩
  · rintro ⟨hf, hout, hreserve, rfl⟩
    exact ⟨indices.rows.size, checkOutput_eq_ok_iff.mpr ⟨hf, hout, rfl⟩, (), hreserve, rfl⟩

/-- With lengths that pass, a validation is stray if room for the samples cannot be reserved. -/
theorem validate_eq_stray {a : Addressing} {indices : Indices} {codebook : Array Single}
    {settings : Settings} {output : Array (Word f)}
    (hf : a.Fits indices.rows.size indices.cols.size codebook.size)
    (hout : output.size = indices.cols.size) (h : ¬ settings.Reservable) :
    (a.validate indices codebook settings output).result = .error .stray := by
  rw [result_validate, checkOutput_eq_ok_iff.mpr ⟨hf, hout, rfl⟩, Settings.reserve_eq_error h]
  rfl

/-- A validation with scales succeeds exactly if there also is one scale per group, and gives the
report of the comparison with the products of entries and scales. -/
theorem validateWithScales_eq_ok_iff {a : Addressing} {indices : Indices}
    {codebook scales : Array Single} {settings : Settings} {output : Array (Word f)}
    {report : Report} :
    (a.validateWithScales indices codebook scales settings output).result = .ok report ↔
      a.Fits indices.rows.size indices.cols.size codebook.size ∧
        output.size = indices.cols.size ∧ scales.size = indices.rows.size ∧
        settings.Reservable ∧
        report = (Comparison.ofProducts a indices codebook scales settings output).report := by
  simp only [result_validateWithScales, bind_eq_ok_iff, Settings.reserve_eq_ok_iff,
    Except.ok.injEq]
  constructor
  · rintro ⟨_, ⟨groups, hg, hs⟩, _, hreserve, rfl⟩
    obtain ⟨hf, hout, rfl⟩ := checkOutput_eq_ok_iff.mp hg
    exact ⟨hf, hout, checkScales_eq_ok_iff.mp hs, hreserve, rfl⟩
  · rintro ⟨hf, hout, hscales, hreserve, rfl⟩
    exact ⟨(), ⟨indices.rows.size, checkOutput_eq_ok_iff.mpr ⟨hf, hout, rfl⟩,
      checkScales_eq_ok_iff.mpr hscales⟩, (), hreserve, rfl⟩

end Addressing

end IndexedCodebook
