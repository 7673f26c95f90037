import IndexedCodebook.Proofs.Dequantize.Pieces
import IndexedCodebook.Proofs.Validation.Exact

/-!
# Validating in pieces

If a comparison finds at every position what two others find one after the other
(`Comparison.Joins`), its counts are the sums of theirs, and its samples are the first ones among
their samples, although each of them holds its own first ones only (`Comparison.Joins.report_eq`).
The comparison of an output in two parts is such a one (`joins_ofEntries`). With the pieces of a
dequantization it says that nothing is gained or lost by working in pieces
(`pieces_equal_whole`).
-/

namespace IndexedCodebook

open Outcome

/-- The mismatch of a position that comes `n` positions later. -/
def Mismatch.shift (n : Nat) (m : Mismatch) : Mismatch := { m with position := m.position + n }

/-- A skipped position that comes `n` positions later. -/
def Skipped.shift (n : Nat) (s : Skipped) : Skipped := { s with position := s.position + n }

namespace Validation

/-- What is found at a position that comes `n` positions later. -/
def Finding.shift (n : Nat) : Finding → Finding
  | agrees => agrees
  | differs m => differs (m.shift n)
  | unreachable s => unreachable (s.shift n)

/-- Nothing changes at a position that comes no positions later. -/
theorem Finding.shift_zero (finding : Finding) : finding.shift 0 = finding := by
  cases finding with
  | agrees | differs m | unreachable s => rfl

private theorem Finding.filterMap_mismatch?_shift (n : Nat) (findings : List Finding) :
    (findings.map (shift n)).filterMap mismatch? =
      (findings.filterMap mismatch?).map (Mismatch.shift n) := by
  rw [List.filterMap_map, List.map_filterMap]
  congr 1
  funext finding
  cases finding with
  | agrees | differs m | unreachable s => rfl

private theorem Finding.length_filterMap_skipped?_shift (n : Nat) (findings : List Finding) :
    ((findings.map (shift n)).filterMap skipped?).length =
      (findings.filterMap skipped?).length := by
  have hshift : (findings.map (shift n)).filterMap skipped? =
      (findings.filterMap skipped?).map (Skipped.shift n) := by
    rw [List.filterMap_map, List.map_filterMap]
    congr 1
    funext finding
    cases finding with
    | agrees | differs m | unreachable s => rfl
  rw [hshift, List.length_map]

private theorem take_append_take {α : Type} (n : Nat) (xs ys : List α) :
    (xs.take n ++ ys.take n).take n = (xs ++ ys).take n := by
  rw [List.take_append, List.take_append, List.take_take, List.take_take, List.length_take,
    Nat.min_self]
  congr 2
  omega

namespace Comparison

variable {c first second : Comparison}

/-- A comparison finds what another one finds and, after that, what a third one finds. -/
structure Joins (c first second : Comparison) : Prop where
  settings_left : first.settings = c.settings
  settings_right : second.settings = c.settings
  size_eq : c.size = first.size + second.size
  left : ∀ i < first.size, c.finding i = first.finding i
  right : ∀ i < second.size, c.finding (first.size + i) = (second.finding i).shift first.size

/-- A position shows what an earlier one shows in another comparison, if it has the same indices and
values; the comparisons may have groups of different sizes. -/
theorem finding_eq_shift {d : Comparison} {i j n : Nat} (hplace : i = j + n)
    (hresolve : c.addressing.resolve? = d.addressing.resolve?)
    (hstride : c.addressing.colCardinality = d.addressing.colCardinality)
    (hentries : c.entries = d.entries)
    (hsettings : c.settings = d.settings) (hrow : c.row i = d.row j) (hcol : c.col i = d.col j)
    (hexpected : c.expected i = d.expected j) (hactual : c.actual i = d.actual j) :
    c.finding i = (d.finding j).shift n := by
  have hagrees : c.Agrees i ↔ d.Agrees j := by
    rw [Agrees, Agrees, hsettings, hexpected, hactual]
  have haddress : c.address i = d.address j := by
    show (c.row i).toNat * c.addressing.colCardinality.toNat + (c.col i).toNat =
      (d.row j).toNat * d.addressing.colCardinality.toNat + (d.col j).toNat
    rw [hstride, hrow, hcol]
  have hmismatch : c.mismatchAt i = (d.mismatchAt j).shift n := by
    rw [mismatchAt, mismatchAt, Mismatch.shift, hplace.symm, hexpected, hactual, hrow, hcol,
      haddress]
  have hskipped : c.skippedAt i = (d.skippedAt j).shift n := by
    rw [skippedAt, skippedAt, Skipped.shift, hplace.symm, hstride, hentries, hrow, hcol]
  rw [finding, finding, hresolve, hentries, hrow, hcol, hmismatch, hskipped]
  simp only [hagrees]
  split
  · rfl
  · split
    · rfl
    · rfl

private theorem Joins.findings_eq (h : c.Joins first second) :
    c.findings = first.findings ++ second.findings.map (Finding.shift first.size) := by
  rw [findings, findings, findings, h.size_eq, List.range_add, List.map_append, List.map_map,
    List.map_map]
  congr 1
  · apply List.map_congr_left
    intro i hi
    exact h.left i (List.mem_range.mp hi)
  · apply List.map_congr_left
    intro i hi
    exact h.right i (List.mem_range.mp hi)

/-- The report on the whole adds up the counts of the parts and has the first ones of their samples.
-/
theorem Joins.report_eq (h : c.Joins first second) :
    c.report =
      { checked := first.report.checked + second.report.checked
        mismatchCount := first.report.mismatchCount + second.report.mismatchCount
        outOfRangeCount := first.report.outOfRangeCount + second.report.outOfRangeCount
        mismatches := (first.report.mismatches ++
          second.report.mismatches.map (Mismatch.shift first.size)).take
            c.settings.maxReported.toNat
        tolerance := c.settings.tolerance } := by
  have hwhole := c.summarizes_tally
  have hfirst := first.summarizes_tally
  have hsecond := second.summarizes_tally
  rw [h.settings_left] at hfirst
  rw [h.settings_right] at hsecond
  simp only [report, Tally.report, Report.mk.injEq, and_true]
  refine ⟨h.size_eq, ?_, ?_, ?_⟩
  · rw [hwhole.mismatchCount, hfirst.mismatchCount, hsecond.mismatchCount, h.findings_eq,
      List.filterMap_append, List.length_append, Finding.filterMap_mismatch?_shift,
      List.length_map]
  · rw [hwhole.outOfRangeCount, hfirst.outOfRangeCount, hsecond.outOfRangeCount, h.findings_eq,
      List.filterMap_append, List.length_append, Finding.length_filterMap_skipped?_shift]
  · rw [hwhole.samples, hfirst.samples, hsecond.samples, h.findings_eq, List.filterMap_append,
      Finding.filterMap_mismatch?_shift, List.map_take, take_append_take]

end Comparison

end Validation

open Validation

namespace Addressing

variable {a : Addressing} {first second : Indices} {codebook : Array Single} {f : Format}
  {settings : Settings} {output₁ output₂ : Array (Word f)}

private theorem joins_ofEntries (h : a.Fits first.rows.size first.cols.size codebook.size)
    (hsize : output₁.size = first.cols.size) :
    (Comparison.ofEntries a (first.append second) codebook settings (output₁ ++ output₂)).Joins
      (Comparison.ofEntries a first codebook settings output₁)
      (Comparison.ofEntries a second codebook settings output₂) := by
  refine ⟨rfl, rfl, Array.size_append, fun i hi ↦ ?_, fun i hi ↦ ?_⟩
  · have hi₁ : i < first.cols.size := hsize ▸ hi
    have hactual : (output₁ ++ output₂).getD i (Word.zero false) =
        output₁.getD i (Word.zero false) := by
      simp [Array.getD_eq_getD_getElem?, Array.getElem?_append_left hi]
    rw [← Finding.shift_zero ((Comparison.ofEntries a first codebook settings output₁).finding i)]
    refine Comparison.finding_eq_shift rfl rfl rfl rfl rfl ?_ ?_ ?_ ?_
    · exact rowAt_append_left h hi₁
    · exact colAt_append_left hi₁
    · show Single.toDouble _ = Single.toDouble _
      rw [entryAt, entryAt, addressAt_append_left h hi₁]
    · exact congrArg (Word.convert binary64) hactual
  · have hfirst : (Comparison.ofEntries a first codebook settings output₁).size =
        first.cols.size := hsize
    have hactual : (output₁ ++ output₂).getD (first.cols.size + i) (Word.zero false) =
        output₂.getD i (Word.zero false) := by
      rw [← hsize]
      simp [Array.getD_eq_getD_getElem?, Array.getElem?_append_right]
    rw [hfirst]
    refine Comparison.finding_eq_shift (Nat.add_comm ..) rfl rfl rfl rfl ?_ ?_ ?_ ?_
    · exact rowAt_append_right h
    · exact colAt_append_right
    · show Single.toDouble _ = Single.toDouble _
      rw [entryAt, entryAt, addressAt_append_right h]
    · exact congrArg (Word.convert binary64) hactual

/-- An output in two parts, each as long as its columns, is as long as the columns of the whole. -/
theorem size_append (hsize₁ : output₁.size = first.cols.size)
    (hsize₂ : output₂.size = second.cols.size) :
    (output₁ ++ output₂).size = (first.append second).cols.size := by
  simp only [Indices.append, Array.size_append, hsize₁, hsize₂]

/-- Validating the whole gives the report that the reports on the parts give. -/
theorem validate_append (h₁ : a.Fits first.rows.size first.cols.size codebook.size)
    (h₂ : a.Fits second.rows.size second.cols.size codebook.size)
    (hsize₁ : output₁.size = first.cols.size) (hsize₂ : output₂.size = second.cols.size)
    (hreserve : settings.Reservable) :
    ∃ report₁ report₂,
      (a.validate first codebook settings output₁).result = .ok report₁ ∧
      (a.validate second codebook settings output₂).result = .ok report₂ ∧
      (a.validate (first.append second) codebook settings (output₁ ++ output₂)).result =
        .ok
          { checked := report₁.checked + report₂.checked
            mismatchCount := report₁.mismatchCount + report₂.mismatchCount
            outOfRangeCount := report₁.outOfRangeCount + report₂.outOfRangeCount
            mismatches := (report₁.mismatches ++
              report₂.mismatches.map (Mismatch.shift first.cols.size)).take
                settings.maxReported.toNat
            tolerance := settings.tolerance } := by
  refine ⟨_, _, validate_eq_ok_iff.mpr ⟨h₁, hsize₁, hreserve, rfl⟩,
    validate_eq_ok_iff.mpr ⟨h₂, hsize₂, hreserve, rfl⟩,
    validate_eq_ok_iff.mpr ⟨h₁.append h₂, size_append hsize₁ hsize₂, hreserve, ?_⟩⟩
  rw [(joins_ofEntries h₁ hsize₁).report_eq, ← hsize₁]
  rfl

/-- Two parts whose lengths pass their check can be processed apart. If both are dequantized, the
whole gives their outputs one after the other; a fault of the first part is the fault of the whole,
and so is one of the second part alone, with its position in the whole. If room for the samples can
be reserved, the report on the whole adds up the counts of the reports on the parts, and its samples
are the first ones of theirs, with their positions in the whole; otherwise all three validations are
stray. -/
theorem pieces_equal_whole (a : Addressing) (codebook : Array Single) (first second : Indices)
    {shape₁ shape₂ : Shape}
    (h₁ : (a.shapeOf first.rows.size first.cols.size codebook.size).result = .ok shape₁)
    (h₂ : (a.shapeOf second.rows.size second.cols.size codebook.size).result = .ok shape₂) :
    (∀ output₁ output₂, (a.dequantize first codebook).result = .ok output₁ →
      (a.dequantize second codebook).result = .ok output₂ →
      (a.dequantize (first.append second) codebook).result = .ok (output₁ ++ output₂)) ∧
    (∀ fault, (a.dequantize first codebook).result = .error fault →
      (a.dequantize (first.append second) codebook).result = .error fault) ∧
    (∀ output₁ fault, (a.dequantize first codebook).result = .ok output₁ →
      (a.dequantize second codebook).result = .error fault →
      ∃ cause, fault = .address cause ∧
        (a.dequantize (first.append second) codebook).result =
          .error (.address { cause with position := cause.position + first.cols.size })) ∧
    ∀ (f : Format) (settings : Settings) (output₁ output₂ : Array (Word f)),
      output₁.size = first.cols.size → output₂.size = second.cols.size →
      (settings.Reservable →
        ∃ report₁ report₂,
          (a.validate first codebook settings output₁).result = .ok report₁ ∧
          (a.validate second codebook settings output₂).result = .ok report₂ ∧
          (a.validate (first.append second) codebook settings (output₁ ++ output₂)).result =
            .ok
              { checked := report₁.checked + report₂.checked
                mismatchCount := report₁.mismatchCount + report₂.mismatchCount
                outOfRangeCount := report₁.outOfRangeCount + report₂.outOfRangeCount
                mismatches := (report₁.mismatches ++
                  report₂.mismatches.map (Mismatch.shift first.cols.size)).take
                    settings.maxReported.toNat
                tolerance := settings.tolerance }) ∧
      (¬ settings.Reservable →
        (a.validate first codebook settings output₁).result = .error .stray ∧
        (a.validate second codebook settings output₂).result = .error .stray ∧
        (a.validate (first.append second) codebook settings (output₁ ++ output₂)).result =
          .error .stray) := by
  have hfits₁ := fits_of_shapeOf_eq_ok h₁
  have hfits₂ := fits_of_shapeOf_eq_ok h₂
  rw [result_dequantize_append hfits₁ hfits₂]
  refine ⟨fun output₁ output₂ ho₁ ho₂ ↦ ?_, fun fault hf ↦ ?_, fun output₁ fault ho₁ hf ↦ ?_,
    fun f settings output₁ output₂ hsize₁ hsize₂ ↦
      ⟨validate_append hfits₁ hfits₂ hsize₁ hsize₂, fun hreserve ↦ ?_⟩⟩
  · rw [ho₁, ho₂]
    rfl
  · rw [hf, error_bind]
  · obtain ⟨cause, rfl⟩ := dequantize_eq_error_address hfits₂ hf
    refine ⟨cause, rfl, ?_⟩
    rw [ho₁, hf]
    rfl
  · exact ⟨validate_eq_stray hfits₁ hsize₁ hreserve, validate_eq_stray hfits₂ hsize₂ hreserve,
      validate_eq_stray (hfits₁.append hfits₂) (size_append hsize₁ hsize₂) hreserve⟩

/-- The second of two parts has a column beyond its cardinality at its first position and, in the
output that is validated, a mismatch at its second. The first part has a mismatch at its first. -/
theorem pieces_equal_whole_two_groups :
    ((unbounded 2 2).dequantize (.append ⟨#[0], #[0, 1]⟩ ⟨#[1], #[2, 0]⟩) #[.ofBits 0,
        .ofBits 0x3f800000, .ofBits 0x40000000, .ofBits 0x40400000]).result =
      .error (.address ⟨2, 1, 2, 4, 4⟩) ∧
    ∃ report, ((unbounded 2 2).validate (.append ⟨#[0], #[0, 1]⟩ ⟨#[1], #[2, 0]⟩) #[.ofBits 0,
        .ofBits 0x3f800000, .ofBits 0x40000000, .ofBits 0x40400000] ⟨Word.zero false, 2⟩
        (#[.ofBits 0x3f800000, .ofBits 0x3f800000] ++ #[.ofBits 0, .ofBits 0] :
          Array Single)).result = .ok report ∧
      report.checked = 4 ∧ report.mismatchCount = 2 ∧ report.outOfRangeCount = 1 ∧
      report.mismatches.map (·.position) = [0, 3] := by
  obtain ⟨-, -, hfault, hreport⟩ := pieces_equal_whole (unbounded 2 2) #[.ofBits 0,
    .ofBits 0x3f800000, .ofBits 0x40000000, .ofBits 0x40400000] ⟨#[0], #[0, 1]⟩ ⟨#[1], #[2, 0]⟩
    rfl rfl
  constructor
  · obtain ⟨cause, hcause, hwhole⟩ := hfault #[.ofBits 0, .ofBits 0x3f800000]
      (.address ⟨0, 1, 2, 4, 4⟩) rfl rfl
    cases hcause
    exact hwhole
  · obtain ⟨report₁, report₂, h₁, h₂, hwhole⟩ := (hreport binary32 ⟨Word.zero false, 2⟩
      #[.ofBits 0x3f800000, .ofBits 0x3f800000] #[.ofBits 0, .ofBits 0] rfl rfl).1 (by decide)
    obtain ⟨-, -, -, rfl⟩ := validate_eq_ok_iff.mp h₁
    obtain ⟨-, -, -, rfl⟩ := validate_eq_ok_iff.mp h₂
    refine ⟨_, hwhole, rfl, ?_, ?_, ?_⟩
    · decide +kernel
    · decide +kernel
    · decide +kernel

/-- With the largest 64-bit number as limit on the samples, the validation of two positions gives no
report, although the lengths of both parts pass their check. -/
theorem pieces_not_reserved :
    ((unbounded 1 1).shapeOf 1 1 1).result = .ok ⟨1, 1, 1⟩ ∧
    ((unbounded 1 1).validate (.append ⟨#[0], #[0]⟩ ⟨#[0], #[0]⟩) #[.ofBits 0x3f800000]
      { maxReported := 0xffffffffffffffff }
      (#[.ofBits 0x3f800000] ++ #[.ofBits 0x40000000] : Array Single)).result =
        .error .stray := by
  have hfits : (unbounded 1 1).Fits 2 2 1 := by decide
  exact ⟨rfl, validate_eq_stray hfits rfl (by decide)⟩

end Addressing

end IndexedCodebook
