import IndexedCodebook.Proofs.Dequantize.Codebook
import IndexedCodebook.Proofs.Validation.Agreement
import IndexedCodebook.Proofs.Validation.Tolerance

/-!
# Validating what was dequantized

On accepted inputs a validation skips nothing, so its report only tells which positions agree
(`Comparison.Accepted.report_flags`). The output of a dequantization is compared with itself: with a
tolerance of at least zero exactly the entries that are not finite mismatch, with any other one
every position does, and entries that no position addresses change neither the output nor the report
(`dequantized_output_validates`). There is a report exactly if room for its samples can be reserved;
a limit on the samples that is too large makes the validation of one position stray
(`dequantized_output_not_reserved`).
-/

namespace IndexedCodebook

namespace Validation

/-- A report that skips nothing, and in which exactly the positions of `flagged` mismatch. -/
structure Report.Flags (r : Report) (c : Comparison) (flagged : Nat → Prop)
    [DecidablePred flagged] : Prop where
  checked : r.checked = c.indices.cols.size
  outOfRangeCount : r.outOfRangeCount = 0
  finding : ∀ i < c.indices.cols.size,
    c.finding i = if flagged i then .differs (c.mismatchAt i) else .agrees
  mismatchCount : r.mismatchCount = (List.range c.indices.cols.size).countP (flagged ·)
  mismatches : r.mismatches =
    (((List.range c.indices.cols.size).filter (flagged ·)).take
      c.settings.maxReported.toNat).map c.mismatchAt
  passed : r.passed = true ↔ ∀ i < c.indices.cols.size, ¬ flagged i

/-- A report on some positions that all reach an entry and agree with it. -/
structure Report.Clean (r : Report) (positions : Nat) : Prop where
  checked : r.checked = positions
  mismatchCount : r.mismatchCount = 0
  outOfRangeCount : r.outOfRangeCount = 0
  passed : r.passed = true

namespace Comparison

/-- The compared output is as long as the columns, and the inputs are accepted. -/
structure Accepted (c : Comparison) : Prop where
  size_eq : c.size = c.indices.cols.size
  accepted : ∃ shape, (c.addressing.accept c.indices c.entries).result = .ok shape

variable {c c' : Comparison}

namespace Accepted

/-- The lengths of accepted inputs fit. -/
theorem fits (h : c.Accepted) :
    c.addressing.Fits c.indices.rows.size c.indices.cols.size c.entries :=
  (Addressing.accept_eq_ok_iff_faultAt.mp h.accepted).1

private theorem skips_eq_false (h : c.Accepted) {i : Nat} (hi : i < c.indices.cols.size) :
    c.skips i = false := by
  obtain ⟨hf, hall⟩ := Addressing.accept_eq_ok_iff_faultAt.mp h.accepted
  exact (faultAt_eq_none_iff_skips hf hi).mp (hall i hi)

private theorem finding_eq (h : c.Accepted) {i : Nat} (hi : i < c.indices.cols.size) :
    c.finding i = if c.Agrees i then .agrees else .differs (c.mismatchAt i) := by
  have hskips : (c.addressing.resolve? c.entries (c.row i) (c.col i)).isNone = false :=
    h.skips_eq_false hi
  rw [finding, if_neg (ne_true_of_eq_false hskips)]

/-- The mismatches on accepted inputs are the positions that do not agree, in order. -/
theorem filterMap_mismatch?_findings (h : c.Accepted) {flagged : Nat → Prop}
    [DecidablePred flagged] (hflagged : ∀ i < c.indices.cols.size, flagged i ↔ ¬ c.Agrees i) :
    c.findings.filterMap Finding.mismatch? =
      ((List.range c.indices.cols.size).filter (flagged ·)).map c.mismatchAt := by
  rw [findings, List.filterMap_map, ← filterMap_ite, h.size_eq]
  apply List.filterMap_congr
  intro i hi
  have hlt := List.mem_range.mp hi
  rw [Function.comp_apply, h.finding_eq hlt]
  by_cases hagrees : c.Agrees i
  · rw [if_pos hagrees, if_neg fun hf ↦ (hflagged i hlt).mp hf hagrees]
    rfl
  · rw [if_neg hagrees, if_pos ((hflagged i hlt).mpr hagrees)]
    rfl

private theorem report_flags (h : c.Accepted) {flagged : Nat → Prop} [DecidablePred flagged]
    (hflagged : ∀ i < c.indices.cols.size, flagged i ↔ ¬ c.Agrees i) :
    c.report.Flags c flagged := by
  have hmismatches := h.filterMap_mismatch?_findings hflagged
  have hskipped : c.report.outOfRangeCount = 0 := by
    rw [outOfRangeCount_report_eq_countP, List.countP_eq_zero]
    intro i hi
    rw [h.skips_eq_false (h.size_eq ▸ List.mem_range.mp hi)]
    exact Bool.false_ne_true
  have hcount : c.report.mismatchCount = (List.range c.indices.cols.size).countP (flagged ·) := by
    have hsum := c.summarizes_tally.mismatchCount
    rw [hmismatches, List.length_map, ← List.countP_eq_length_filter] at hsum
    exact hsum
  constructor
  · exact h.size_eq
  · exact hskipped
  · intro i hi
    rw [h.finding_eq hi]
    by_cases hagrees : c.Agrees i
    · rw [if_pos hagrees, if_neg fun hf ↦ (hflagged i hi).mp hf hagrees]
    · rw [if_neg hagrees, if_pos ((hflagged i hi).mpr hagrees)]
  · exact hcount
  · have hsamples := c.summarizes_tally.samples
    rw [hmismatches, ← List.map_take] at hsamples
    exact hsamples
  · rw [Report.passed, hskipped, hcount, Bool.and_eq_true, beq_iff_eq, List.countP_eq_zero]
    simp

/-- If every position of accepted inputs agrees, the report is clean. -/
theorem report_clean (h : c.Accepted) (hall : ∀ i < c.indices.cols.size, c.Agrees i) :
    c.report.Clean c.indices.cols.size := by
  have hflags : c.report.Flags c fun _ ↦ False :=
    h.report_flags fun i hi ↦ iff_of_false not_false fun hdiffers ↦ hdiffers (hall i hi)
  refine ⟨hflags.checked, ?_, hflags.outOfRangeCount, hflags.passed.mpr fun _ _ ↦ not_false⟩
  rw [hflags.mismatchCount, List.countP_eq_zero]
  simp

private theorem tally_congr (h : c.Accepted) (h' : c'.Accepted)
    (haddressing : c.addressing = c'.addressing)
    (hindices : c.indices = c'.indices) (hsettings : c.settings = c'.settings)
    (hexpected : ∀ i < c.indices.cols.size, c.expected i = c'.expected i)
    (hactual : ∀ i < c.indices.cols.size, c.actual i = c'.actual i) : c.tally = c'.tally := by
  have hsize : c.size = c'.size := by rw [h.size_eq, h'.size_eq, hindices]
  refine tally_congr_finding hsize hsettings fun i hi ↦ ?_
  rw [h.size_eq] at hi
  have hagrees : c.Agrees i ↔ c'.Agrees i := by
    rw [Agrees, Agrees, hsettings, hexpected i hi, hactual i hi]
  have hmismatch : c.mismatchAt i = c'.mismatchAt i := by
    simp only [mismatchAt, row, col, address, haddressing, hindices, hexpected i hi, hactual i hi]
  rw [h.finding_eq hi, h'.finding_eq (hindices ▸ hi), hmismatch]
  exact if_congr hagrees rfl rfl

end Accepted

end Comparison

end Validation

namespace Addressing

open Validation

variable {a : Addressing} {indices : Indices} {codebook codebook' : Array Single}
  {settings : Settings}

/-- The comparison of an output as long as the columns is on accepted inputs if the inputs are. -/
theorem accepted_ofEntries {f : Format} {output : Array (Word f)} {shape : Shape}
    (h : (a.accept indices codebook.size).result = .ok shape)
    (hout : output.size = indices.cols.size) (settings : Settings) :
    (Comparison.ofEntries a indices codebook settings output).Accepted :=
  ⟨hout, shape, h⟩

/-- On accepted inputs an output as long as the columns is validated if room for the samples can be
reserved, and the report is that of the comparison. -/
theorem validate_eq_ok_of_accepted {f : Format} {output : Array (Word f)}
    (h : (Comparison.ofEntries a indices codebook settings output).Accepted)
    (hreserve : settings.Reservable) :
    (a.validate indices codebook settings output).result =
      .ok (Comparison.ofEntries a indices codebook settings output).report :=
  validate_eq_ok_iff.mpr ⟨h.fits, h.size_eq, hreserve, rfl⟩

/-- If room for the samples cannot be reserved, the validation is stray. -/
theorem validate_eq_stray_of_accepted {f : Format} {output : Array (Word f)}
    (h : (Comparison.ofEntries a indices codebook settings output).Accepted)
    (hreserve : ¬ settings.Reservable) :
    (a.validate indices codebook settings output).result = .error .stray :=
  validate_eq_stray h.fits h.size_eq hreserve

/-- An output agrees with the entries where it is within the tolerance of them. -/
theorem agrees_ofEntries_iff {f : Format} {output : Array (Word f)} {i : Nat} :
    (Comparison.ofEntries a indices codebook settings output).Agrees i ↔
      within settings.tolerance.toDouble (a.entryAt indices codebook i).toDouble
        ((output.getD i (Word.zero false)).convert binary64) = true :=
  Iff.rfl

/-- An output agrees with the products where it is within the tolerance of them. -/
theorem agrees_ofProducts_iff {f : Format} {scales : Array Single} {output : Array (Word f)}
    {i : Nat} :
    (Comparison.ofProducts a indices codebook scales settings output).Agrees i ↔
      within settings.tolerance.toDouble
        ((a.entryAt indices codebook i).toDouble.mul (a.scaleAt scales i).toDouble)
        ((output.getD i (Word.zero false)).convert binary64) = true :=
  Iff.rfl

/-- An element of the array of the values of all positions. -/
theorem getD_map_range {α : Type} (value : Nat → α) (blank : α) {i n : Nat} (hi : i < n) :
    ((Array.range n).map value).getD i blank = value i := by
  simp [hi]

/-- A dequantized output agrees with its reference exactly at the finite entries, if the tolerance
is at least zero, and nowhere otherwise. -/
theorem agrees_entries_iff (a : Addressing) (codebook : Array Single) (settings : Settings)
    {i : Nat} (hi : i < indices.cols.size) :
    (Comparison.ofEntries a indices codebook settings
        ((Array.range indices.cols.size).map (a.entryAt indices codebook))).Agrees i ↔
      (a.entryAt indices codebook i).isFinite ∧ settings.tolerance.AtLeast 0 := by
  rw [agrees_ofEntries_iff, getD_map_range _ _ hi, ← Single.isFinite_toDouble_iff,
    ← Single.atLeast_toDouble_iff]
  exact within_self_iff

private theorem tally_ofEntries_congr {f : Format} {output : Array (Word f)}
    (h : (Comparison.ofEntries a indices codebook settings output).Accepted)
    (h' : (Comparison.ofEntries a indices codebook' settings output).Accepted)
    (hsame : ∀ i < indices.cols.size,
      codebook'[a.addressAt indices i]? = codebook[a.addressAt indices i]?) :
    (Comparison.ofEntries a indices codebook' settings output).tally =
      (Comparison.ofEntries a indices codebook settings output).tally :=
  h'.tally_congr h rfl rfl rfl
    (fun i hi ↦ congrArg Single.toDouble (entryAt_congr (hsame i hi))) fun _ _ ↦ rfl

/-- A dequantized output is validated with all settings under which room for the samples can be
reserved; under any others the validation is stray. The report skips nothing; with a tolerance of at
least zero exactly the positions of entries that are not finite mismatch, with any other one every
position does. Another codebook with the same elements at the addresses of all positions gives the
same output and the same outcome, and the same events if it also has the same length. -/
theorem dequantized_output_validates (a : Addressing) (indices : Indices)
    (codebook output : Array Single) (settings : Settings)
    (h : (a.dequantize indices codebook).result = .ok output) :
    (settings.Reservable →
      ∃ report, (a.validate indices codebook settings output).result = .ok report ∧
        (settings.tolerance.AtLeast 0 →
          report.Flags (.ofEntries a indices codebook settings output)
            fun i ↦ ¬ (a.entryAt indices codebook i).isFinite) ∧
        (¬ settings.tolerance.AtLeast 0 →
          report.Flags (.ofEntries a indices codebook settings output) fun _ ↦ True)) ∧
    (¬ settings.Reservable →
      (a.validate indices codebook settings output).result = .error .stray) ∧
    ∀ codebook' : Array Single,
      (∀ i < indices.cols.size,
        codebook'[a.addressAt indices i]? = codebook[a.addressAt indices i]?) →
      (a.dequantize indices codebook').result = .ok output ∧
      (a.validate indices codebook' settings output).result =
        (a.validate indices codebook settings output).result ∧
      (codebook'.size = codebook.size →
        a.dequantize indices codebook' = a.dequantize indices codebook ∧
        a.validate indices codebook' settings output =
          a.validate indices codebook settings output) := by
  obtain ⟨⟨shape, hs⟩, rfl⟩ := dequantize_eq_ok_iff.mp h
  have hsize : ((Array.range indices.cols.size).map (a.entryAt indices codebook)).size =
      indices.cols.size := by simp
  have haccepted := accepted_ofEntries hs hsize settings
  refine ⟨fun hreserve ↦ ?_, validate_eq_stray_of_accepted haccepted, ?_⟩
  · refine ⟨_, validate_eq_ok_of_accepted haccepted hreserve, fun ht ↦ ?_, fun ht ↦ ?_⟩
    · apply haccepted.report_flags
      intro i hi
      have hagrees := agrees_entries_iff a codebook settings hi
      exact not_congr (hagrees.trans (and_iff_left ht)).symm
    · apply haccepted.report_flags
      intro i hi
      have hagrees := agrees_entries_iff a codebook settings hi
      exact iff_of_true trivial fun hwithin ↦ ht (hagrees.mp hwithin).2
  · intro codebook' hsame
    obtain ⟨shape', hs'⟩ := accept_congr hs hsame
    have haccepted' := accepted_ofEntries hs' hsize settings
    have htally := tally_ofEntries_congr haccepted haccepted' hsame
    have houtput := dequantize_congr h hsame
    obtain ⟨-, hentries⟩ := dequantize_eq_ok_iff.mp houtput
    refine ⟨houtput, ?_, fun hlength ↦ ⟨?_, ?_⟩⟩
    · by_cases hreserve : settings.Reservable
      · rw [validate_eq_ok_of_accepted haccepted' hreserve,
          validate_eq_ok_of_accepted haccepted hreserve, Comparison.report, Comparison.report,
          htally]
        rfl
      · rw [validate_eq_stray_of_accepted haccepted' hreserve,
          validate_eq_stray_of_accepted haccepted hreserve]
    · rw [dequantize_eq, dequantize_eq, hentries, hlength]
    · rw [validate_eq, validate_eq, hlength]
      apply Traced.bind_congr
      intro _ _
      rw [Comparison.outcome, Comparison.outcome, Comparison.report, Comparison.report, htally]
      rfl

/-- With the negative zero as tolerance, an infinity is the one mismatch among two positions; the
NaN that no position addresses may be left out. -/
theorem dequantized_output_validates_negative_zero :
    ∃ (output : Array Single) (report : Report),
      ((unbounded 2 3).dequantize ⟨#[0], #[1, 0]⟩
        #[.ofBits 0xff800000, .ofBits 1, .ofBits 0x7fc00000]).result = .ok output ∧
      ((unbounded 2 3).validate ⟨#[0], #[1, 0]⟩
        #[.ofBits 0xff800000, .ofBits 1, .ofBits 0x7fc00000] ⟨Word.zero true, 5⟩ output).result =
          .ok report ∧
      report.mismatches.map (·.position) = [1] ∧ report.outOfRangeCount = 0 ∧
      ((unbounded 2 3).validate ⟨#[0], #[1, 0]⟩ #[.ofBits 0xff800000, .ofBits 1]
        ⟨Word.zero true, 5⟩ output).result = .ok report := by
  have hok : ((unbounded 2 3).dequantize ⟨#[0], #[1, 0]⟩
      #[.ofBits 0xff800000, .ofBits 1, .ofBits 0x7fc00000]).result =
        .ok #[.ofBits 1, .ofBits 0xff800000] :=
    dequantize_eq_ok_iff.mpr ⟨⟨⟨2, 1, 3⟩, rfl⟩, by decide +kernel⟩
  have ht : (Word.zero true : Single).AtLeast 0 :=
    .finite (Word.isFinite_zero true (by decide)) (Word.toRat_zero true).ge
  obtain ⟨hreserved, -, hcodebook⟩ :=
    dequantized_output_validates _ _ _ _ ⟨Word.zero true, 5⟩ hok
  obtain ⟨report, hreport, hflags, -⟩ := hreserved (by decide)
  obtain ⟨-, hsame, -⟩ := hcodebook #[.ofBits 0xff800000, .ofBits 1] (by decide)
  refine ⟨_, report, hok, hreport, ?_, (hflags ht).outOfRangeCount, hsame.trans hreport⟩
  rw [(hflags ht).mismatches, List.map_map]
  decide +kernel

/-- With the largest 64-bit number as limit on the samples, one position is dequantized, and the
validation of that output gives no report. -/
theorem dequantized_output_not_reserved :
    ∃ output : Array Single,
      ((unbounded 1 1).dequantize ⟨#[0], #[0]⟩ #[.ofBits 0x3f800000]).result = .ok output ∧
      ((unbounded 1 1).validate ⟨#[0], #[0]⟩ #[.ofBits 0x3f800000]
        { maxReported := 0xffffffffffffffff } output).result = .error .stray := by
  have hfits : (unbounded 1 1).Fits 1 1 1 := by decide
  refine ⟨#[.ofBits 0x3f800000], ?_, validate_eq_stray hfits rfl (by decide)⟩
  exact dequantize_eq_ok_iff.mpr ⟨⟨⟨1, 1, 1⟩, rfl⟩, by decide +kernel⟩

end Addressing

end IndexedCodebook
