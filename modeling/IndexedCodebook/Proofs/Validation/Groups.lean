import IndexedCodebook.Proofs.Dequantize.Groups
import IndexedCodebook.Proofs.Validation.Agreement
import IndexedCodebook.Proofs.Validation.Pieces

/-!
# Validating in smaller groups

In smaller groups with repeated rows a validation finds at every position what it found there, so
its whole outcome, events included, stays as it was (`validate_repeatRows` and
`validateWithScales_repeatRows`). With the outcomes of acceptance and of dequantization this makes
groups a mere saving of row indices (`groups_only_save_rows`).
-/

namespace IndexedCodebook

open Outcome

namespace Validation.Comparison

private theorem outcome_congr {c d : Comparison} (hsize : c.size = d.size)
    (hsettings : c.settings = d.settings) (hfinding : ∀ i < c.size, c.finding i = d.finding i) :
    c.outcome = d.outcome := by
  rw [outcome, outcome, report, report, tally_congr_finding hsize hsettings hfinding, hsize,
    hsettings]

end Validation.Comparison

open Validation

namespace Addressing

variable {a : Addressing} {indices : Indices} {codebook scales : Array Single} {times : Nat}
  {size : UInt64} {f : Format}

private theorem outcome_ofEntries_repeatRows (h : a.Usable)
    (hsize : a.groupSize.toNat = times * size.toNat) (settings : Settings)
    (output : Array (Word f)) :
    (Comparison.ofEntries (a.withGroupSize size) (indices.repeatRows times) codebook settings
        output).outcome =
      (Comparison.ofEntries a indices codebook settings output).outcome := by
  refine Comparison.outcome_congr (by rfl) (by rfl) fun i _ ↦ ?_
  -- the same position is one that is moved by nothing
  rw [← Finding.shift_zero ((Comparison.ofEntries a indices codebook settings output).finding i)]
  refine Comparison.finding_eq_shift rfl rfl rfl rfl rfl ?_ rfl ?_ rfl
  · exact rowAt_repeatRows indices h hsize i
  · exact congrArg Single.toDouble (entryAt_repeatRows indices codebook h hsize i)

private theorem outcome_ofProducts_repeatRows (h : a.Usable)
    (hsize : a.groupSize.toNat = times * size.toNat) (settings : Settings)
    (output : Array (Word f)) :
    (Comparison.ofProducts (a.withGroupSize size) (indices.repeatRows times) codebook
        (repeatEach times scales) settings output).outcome =
      (Comparison.ofProducts a indices codebook scales settings output).outcome := by
  refine Comparison.outcome_congr (by rfl) (by rfl) fun i _ ↦ ?_
  rw [← Finding.shift_zero
    ((Comparison.ofProducts a indices codebook scales settings output).finding i)]
  refine Comparison.finding_eq_shift rfl rfl rfl rfl rfl ?_ rfl ?_ rfl
  · exact rowAt_repeatRows indices h hsize i
  · have hentry := congrArg Single.toDouble
      (entryAt_repeatRows indices codebook h hsize i)
    have hscale := congrArg Single.toDouble (scaleAt_repeatEach h hsize scales i)
    exact congrArg₂ Word.mul hentry hscale

/-- In smaller groups with repeated rows a validation has the outcome and the events that it had. -/
theorem validate_repeatRows (h : a.Fits indices.rows.size indices.cols.size codebook.size)
    (hsize : a.groupSize.toNat = times * size.toNat) (settings : Settings)
    (output : Array (Word f)) :
    (a.withGroupSize size).validate (indices.repeatRows times) codebook settings output =
      a.validate indices codebook settings output := by
  rw [validate_eq, validate_eq, checkOutput_of_fits (h.repeatRows hsize), checkOutput_of_fits h,
    outcome_ofEntries_repeatRows h.usable hsize, sizeEvents_withGroupSize,
    Indices.cols_repeatRows]
  by_cases hout : output.size = indices.cols.size
  · rw [if_pos hout, if_pos hout, Traced.bind_of_ok (t := ⟨_, _⟩) _ rfl,
      Traced.bind_of_ok (t := ⟨_, _⟩) _ rfl]
  · rw [if_neg hout, if_neg hout]

/-- With one scale per group, and the scales repeated like the rows, so has a validation with
scales. -/
theorem validateWithScales_repeatRows
    (h : a.Fits indices.rows.size indices.cols.size codebook.size)
    (hsize : a.groupSize.toNat = times * size.toNat) (hscales : scales.size = indices.rows.size)
    (settings : Settings) (output : Array (Word f)) :
    (a.withGroupSize size).validateWithScales (indices.repeatRows times) codebook
        (repeatEach times scales) settings output =
      a.validateWithScales indices codebook scales settings output := by
  have hcount : (repeatEach times scales).size = (indices.repeatRows times).rows.size := by
    rw [size_repeatEach, hscales, Indices.size_rows_repeatRows]
  rw [validateWithScales_eq, validateWithScales_eq, checkOutput_of_fits (h.repeatRows hsize),
    checkOutput_of_fits h, outcome_ofProducts_repeatRows h.usable hsize, sizeEvents_withGroupSize,
    Indices.cols_repeatRows]
  by_cases hout : output.size = indices.cols.size
  · rw [if_pos hout, if_pos hout, Traced.bind_of_ok (t := ⟨_, _⟩) _ rfl,
      Traced.bind_of_ok (t := ⟨_, _⟩) _ rfl, checkScales_eq_ok_iff.mpr hcount,
      checkScales_eq_ok_iff.mpr hscales]
  · rw [if_neg hout, if_neg hout]
    rfl

/-- What stays as it was in groups of another size, with `times` as many rows. Only the number of
groups changes. -/
structure SameOutcomes (a : Addressing) (size : UInt64) (times : Nat) (indices : Indices)
    (codebook : Array Single) : Prop where
  accept : ((a.withGroupSize size).accept (indices.repeatRows times) codebook.size).result =
    (a.accept indices codebook.size).result >>= fun shape ↦
      .ok { shape with groups := shape.groups * times }
  dequantize : ((a.withGroupSize size).dequantize (indices.repeatRows times) codebook).result =
    (a.dequantize indices codebook).result
  dequantizeWithScales : ∀ scales : Array Single, scales.size = indices.rows.size →
    ((a.withGroupSize size).dequantizeWithScales (indices.repeatRows times) codebook
        (repeatEach times scales)).result =
      (a.dequantizeWithScales indices codebook scales).result
  dequantizeBFloat :
    ((a.withGroupSize size).dequantizeBFloat (indices.repeatRows times) codebook).result =
      (a.dequantizeBFloat indices codebook).result
  validate : ∀ (f : Format) (settings : Settings) (output : Array (Word f)),
    (a.withGroupSize size).validate (indices.repeatRows times) codebook settings output =
      a.validate indices codebook settings output
  validateWithScales : ∀ scales : Array Single, scales.size = indices.rows.size →
    ∀ (f : Format) (settings : Settings) (output : Array (Word f)),
      (a.withGroupSize size).validateWithScales (indices.repeatRows times) codebook
          (repeatEach times scales) settings output =
        a.validateWithScales indices codebook scales settings output

/-- Groups only save row indices. Where the lengths fit, groups of `size` positions with every row,
and every scale, `times` times in a row have all the outcomes of groups of `times * size` positions.
In groups of one position there is one row for every position, and a dequantization gives the entry
at the row and the column of each. -/
theorem groups_only_save_rows (a : Addressing) (indices : Indices) (codebook : Array Single)
    (times : Nat) (size : UInt64) (hsize : a.groupSize.toNat = times * size.toNat) {shape : Shape}
    (hlengths :
      (a.shapeOf indices.rows.size indices.cols.size codebook.size).result = .ok shape) :
    a.SameOutcomes size times indices codebook ∧
    (size = 1 →
      (indices.repeatRows times).rows.size = indices.cols.size ∧
      ∀ output, (a.dequantize indices codebook).result = .ok output → ∀ i < indices.cols.size,
        ∃ row col entry, (indices.repeatRows times).rows[i]? = some row ∧
          indices.cols[i]? = some col ∧
          codebook[row.toNat * a.colCardinality.toNat + col.toNat]? = some entry ∧
          output[i]? = some entry) := by
  have hf := fits_of_shapeOf_eq_ok hlengths
  constructor
  · constructor
    · exact result_accept_repeatRows hf hsize
    · exact result_dequantize_repeatRows hf hsize
    · exact fun scales hscales ↦ result_dequantizeWithScales_repeatRows hf hsize hscales
    · exact result_dequantizeBFloat_repeatRows hf hsize
    · exact fun f settings output ↦ validate_repeatRows hf hsize settings output
    · exact fun scales hscales f settings output ↦
        validateWithScales_repeatRows hf hsize hscales settings output
  · rintro rfl
    have htimes : a.groupSize.toNat = times := hsize.trans (Nat.mul_one times)
    constructor
    · rw [Indices.size_rows_repeatRows, ← htimes, hf.rows_mul_groupSize]
    · intro output ho i hi
      exact entries_of_repeatRows_one htimes ho hi

/-- Two groups of four positions are four groups of two. The column 3 of the second group is beyond
its cardinality at either size, at the same position and with the same report. -/
theorem groups_only_save_rows_four_groups :
    ((unbounded 2 3).dequantize ⟨#[1, 1, 0, 0], #[0, 1, 2, 0, 1, 2, 3, 0]⟩ #[.ofBits 0,
        .ofBits 0x3f800000, .ofBits 0x40000000, .ofBits 0x40400000, .ofBits 0x40800000,
        .ofBits 0x40a00000]).result = .error (.address ⟨6, 0, 3, 3, 6⟩) ∧
    ∃ report, ((unbounded 2 3).validate ⟨#[1, 1, 0, 0], #[0, 1, 2, 0, 1, 2, 3, 0]⟩ #[.ofBits 0,
        .ofBits 0x3f800000, .ofBits 0x40000000, .ofBits 0x40400000, .ofBits 0x40800000,
        .ofBits 0x40a00000] ⟨Word.zero false, 2⟩
        (Array.replicate 8 (Word.zero false) : Array Single)).result = .ok report ∧
      report.mismatchCount = 6 ∧ report.outOfRangeCount = 1 ∧
      report.mismatches.map (·.position) = [0, 1] := by
  have hlengths : ((unbounded 4 3).shapeOf 2 8 6).result = .ok ⟨8, 2, 6⟩ := rfl
  obtain ⟨hsame, -⟩ := groups_only_save_rows (unbounded 4 3) ⟨#[1, 0], #[0, 1, 2, 0, 1, 2, 3, 0]⟩
    #[.ofBits 0, .ofBits 0x3f800000, .ofBits 0x40000000, .ofBits 0x40400000, .ofBits 0x40800000,
      .ofBits 0x40a00000] 2 2 rfl hlengths
  have hfits : (unbounded 4 3).Fits 2 8 6 := by decide
  refine ⟨hsame.dequantize.trans rfl, _,
    (congrArg Traced.result (hsame.validate binary32 ⟨Word.zero false, 2⟩ _)).trans
      (validate_eq_ok_iff.mpr ⟨hfits, rfl, by decide, rfl⟩), ?_, ?_, ?_⟩
  · decide +kernel
  · decide +kernel
  · decide +kernel

end Addressing

end IndexedCodebook
