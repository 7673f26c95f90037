import IndexedCodebook.Proofs.Validation.Comparison
import IndexedCodebook.Proofs.Validation.Tally
import IndexedCodebook.Proofs.Validation.Tolerance

/-!
# Reports are exact

The report on a comparison counts exactly the positions that reach no entry and those that mismatch,
and holds the first mismatches in order: `Report.IsExact`, proved for every validation in
`reports_exact`. So a report turns into a result exactly if every position reaches an entry and
agrees with it, however few mismatches it may hold.
-/

namespace IndexedCodebook.Validation

/-- What a report says of a comparison. -/
structure Report.IsExact (r : Report) (c : Comparison) : Prop where
  checked : r.checked = c.size
  outOfRangeCount : r.outOfRangeCount = (List.range c.size).countP (¬ c.Reached ·)
  mismatchCount : r.mismatchCount = (List.range c.size).countP (c.Mismatched ·)
  counts_le : r.mismatchCount + r.outOfRangeCount ≤ r.checked
  /-- The samples are the first mismatches, each with its own values and indices. -/
  mismatches : r.mismatches =
    (((List.range c.size).filter (c.Mismatched ·)).take c.settings.maxReported.toNat).map
      c.mismatchAt
  length_mismatches : r.mismatches.length = min c.settings.maxReported.toNat r.mismatchCount
  increasing : r.mismatches.Pairwise (·.position < ·.position)
  /-- The address of a sample is the exact one. -/
  address_eq : ∀ m ∈ r.mismatches, m.address.toNat = c.address m.position
  /-- Positions agree where the word closest to the exact difference is a number and the tolerance
  is at least its size. -/
  agrees_iff : ∀ i < c.size, ∃ difference : Double,
    ((c.expected i).value.add (c.actual i).value.neg).RoundsTo difference ∧
      (c.Agrees i ↔
        difference.isNaN = false ∧ c.settings.tolerance.AtLeast |difference.point|)
  /-- What is not a number counts as a mismatch. -/
  mismatched_of_isNaN : ∀ i < c.size, c.Reached i →
    (c.expected i).isNaN = true ∨ (c.actual i).isNaN = true ∨
      c.settings.tolerance.isNaN = true → c.Mismatched i
  toResult_eq : r.toResult =
    if ∀ i < c.size, c.Reached i ∧ c.Agrees i then .ok r
    else .error (.tolerance ⟨r.mismatchCount, r.outOfRangeCount, r.checked, c.settings.tolerance⟩)

namespace Comparison

variable {c : Comparison}

/-- Whether the indices of a position do not resolve. -/
def skips (c : Comparison) (i : Nat) : Bool :=
  (c.addressing.resolve? c.entries (c.row i) (c.col i)).isNone

private theorem skips_iff (hsize : c.entries < 2 ^ 64) (i : Nat) :
    c.skips i = true ↔ ¬ c.Reached i := by
  rw [skips, Option.isNone_iff_eq_none, Addressing.resolve?_eq_none_iff hsize]
  rfl

private theorem mismatch?_finding (hsize : c.entries < 2 ^ 64) (i : Nat) :
    (c.finding i).mismatch? = if c.Mismatched i then some (c.mismatchAt i) else none := by
  unfold finding
  split
  · next hn =>
    have hn : ¬ c.Reached i := (skips_iff hsize i).mp hn
    rw [if_neg fun hm : c.Mismatched i ↦ hn hm.1]
    rfl
  · next hn =>
    have hn : c.Reached i := Decidable.not_not.mp fun hr ↦ hn ((skips_iff hsize i).mpr hr)
    split
    · next ha =>
      rw [if_neg fun hm : c.Mismatched i ↦ hm.2 ha]
      rfl
    · next ha =>
      rw [if_pos (show c.Mismatched i from ⟨hn, ha⟩)]
      rfl

private theorem skipped?_finding (c : Comparison) (i : Nat) :
    (c.finding i).skipped? = if c.skips i then some (c.skippedAt i) else none := by
  unfold finding skips
  split
  · rfl
  · split
    · rfl
    · rfl

/-- Keeping some elements and mapping them is a filter and a map. -/
theorem filterMap_ite {α : Type} (p : Nat → Prop) [DecidablePred p] (g : Nat → α)
    (xs : List Nat) :
    xs.filterMap (fun i ↦ if p i then some (g i) else none) = (xs.filter (p ·)).map g := by
  induction xs with
  | nil => rfl
  | cons x xs ih =>
    by_cases h : p x
    · simp [h, ih]
    · simp [h, ih]

/-- The mismatches among the findings are the mismatched positions, in order. -/
theorem filterMap_mismatch?_findings (hsize : c.entries < 2 ^ 64) :
    c.findings.filterMap Finding.mismatch? =
      ((List.range c.size).filter (c.Mismatched ·)).map c.mismatchAt := by
  rw [findings, List.filterMap_map, ← filterMap_ite]
  congr 1
  funext i
  exact mismatch?_finding hsize i

/-- The skipped positions among the findings are those that do not resolve, in order. -/
theorem filterMap_skipped?_findings (c : Comparison) :
    c.findings.filterMap Finding.skipped? =
      ((List.range c.size).filter c.skips).map c.skippedAt := by
  have h := filterMap_ite (c.skips · = true) c.skippedAt (List.range c.size)
  simp only [Bool.decide_eq_true] at h
  rw [findings, List.filterMap_map, ← h]
  congr 1
  funext i
  exact c.skipped?_finding i

/-- The tally summarizes the findings. -/
theorem summarizes_tally (c : Comparison) :
    c.tally.Summarizes c.settings.maxReported.toNat c.findings :=
  Tally.summarizes_foldl _ _

/-- The report counts the mismatched positions. -/
theorem mismatchCount_report (hsize : c.entries < 2 ^ 64) :
    c.report.mismatchCount = (List.range c.size).countP (c.Mismatched ·) := by
  have h := c.summarizes_tally.mismatchCount
  rw [filterMap_mismatch?_findings hsize, List.length_map, ← List.countP_eq_length_filter] at h
  exact h

/-- The report counts the positions that do not resolve. -/
theorem outOfRangeCount_report_eq_countP (c : Comparison) :
    c.report.outOfRangeCount = (List.range c.size).countP c.skips := by
  have h := c.summarizes_tally.outOfRangeCount
  rw [filterMap_skipped?_findings, List.length_map, ← List.countP_eq_length_filter] at h
  exact h

private theorem outOfRangeCount_report (hsize : c.entries < 2 ^ 64) :
    c.report.outOfRangeCount = (List.range c.size).countP (¬ c.Reached ·) := by
  rw [outOfRangeCount_report_eq_countP]
  apply List.countP_congr
  intro i _
  rw [skips_iff hsize, decide_eq_true_eq]

/-- The report holds the first mismatched positions. -/
theorem mismatches_report (hsize : c.entries < 2 ^ 64) :
    c.report.mismatches =
      (((List.range c.size).filter (c.Mismatched ·)).take c.settings.maxReported.toNat).map
        c.mismatchAt := by
  have h := c.summarizes_tally.samples
  rw [filterMap_mismatch?_findings hsize, ← List.map_take] at h
  exact h

private theorem countP_mismatched_add_le (c : Comparison) :
    (List.range c.size).countP (c.Mismatched ·) + (List.range c.size).countP (¬ c.Reached ·) ≤
      c.size := by
  have hle : (List.range c.size).countP (c.Mismatched ·) ≤
      (List.range c.size).countP (c.Reached ·) := by
    apply List.countP_mono_left
    intro i _ hm
    exact decide_eq_true (of_decide_eq_true hm).1
  have hadd := List.length_eq_countP_add_countP (c.Reached ·) (l := List.range c.size)
  rw [List.length_range] at hadd
  simp only [decide_not, Bool.not_eq_true, decide_eq_false_iff_not] at hadd ⊢
  omega

/-- Nothing is counted exactly if every position reaches an entry and agrees with it. -/
theorem counts_eq_zero_iff (c : Comparison) :
    (List.range c.size).countP (c.Mismatched ·) = 0 ∧
        (List.range c.size).countP (¬ c.Reached ·) = 0 ↔
      ∀ i < c.size, c.Reached i ∧ c.Agrees i := by
  simp only [List.countP_eq_zero, List.mem_range, decide_eq_true_eq, Decidable.not_not]
  constructor
  · rintro ⟨hm, hr⟩ i hi
    exact ⟨hr i hi, Decidable.not_not.mp fun ha ↦ hm i hi ⟨hr i hi, ha⟩⟩
  · intro h
    exact ⟨fun i hi hm ↦ hm.2 (h i hi).2, fun i hi ↦ (h i hi).1⟩

/-- With a 64-bit codebook length, the report of a comparison is exact. -/
theorem isExact_report (hsize : c.entries < 2 ^ 64) : c.report.IsExact c where
  checked := rfl
  outOfRangeCount := outOfRangeCount_report hsize
  mismatchCount := mismatchCount_report hsize
  counts_le := by
    rw [mismatchCount_report hsize, outOfRangeCount_report hsize]
    exact c.countP_mismatched_add_le
  mismatches := mismatches_report hsize
  length_mismatches := by
    rw [mismatches_report hsize, mismatchCount_report hsize, List.length_map, List.length_take,
      List.countP_eq_length_filter]
  increasing := by
    rw [mismatches_report hsize, List.pairwise_map]
    exact (List.pairwise_lt_range.filter _).take
  address_eq := by
    intro m hm
    rw [mismatches_report hsize, List.mem_map] at hm
    obtain ⟨i, hi, rfl⟩ := hm
    have hmis := (List.mem_filter.mp (List.mem_of_mem_take hi)).2
    have hlt : c.address i < c.entries := (of_decide_eq_true hmis).1.address_lt
    exact (UInt64.toNat_ofNat').trans (Nat.mod_eq_of_lt (by omega))
  agrees_iff := by
    intro i _
    obtain ⟨difference, hclosest, hwithin⟩ := within_iff_of_closest
      c.settings.tolerance.toDouble (c.expected i) (c.actual i)
    rw [Single.atLeast_toDouble_iff] at hwithin
    exact ⟨difference, hclosest, hwithin⟩
  mismatched_of_isNaN := by
    intro i _ hr h
    refine ⟨hr, ?_⟩
    have hw : within c.settings.tolerance.toDouble (c.expected i) (c.actual i) = false := by
      apply within_eq_false_of_isNaN
      rcases h with h | h | h
      · exact .inl h
      · exact .inr (.inl h)
      · exact .inr (.inr (Word.isNaN_toDouble h))
    rw [Agrees, hw]
    exact Bool.false_ne_true
  toResult_eq := by
    have hpassed : c.report.passed = true ↔ ∀ i < c.size, c.Reached i ∧ c.Agrees i := by
      rw [← counts_eq_zero_iff, ← mismatchCount_report hsize, ← outOfRangeCount_report hsize,
        Report.passed, Bool.and_eq_true, beq_iff_eq, beq_iff_eq]
    simp only [Report.toResult, hpassed]
    rfl

end Comparison

/-- Every report that a validation gives, with or without scales, is exact: it counts exactly the
positions that reach no entry and those outside the tolerance, holds the first mismatches, and
passes exactly if every position reaches an entry and is within the tolerance. -/
theorem reports_exact {f : Format} (a : Addressing) (indices : Indices)
    (codebook scales : Array Single) (settings : Settings) (output : Array (Word f))
    (hsize : codebook.size < 2 ^ 64) :
    (∀ report, (a.validate indices codebook settings output).result = .ok report →
      report.IsExact (Comparison.ofEntries a indices codebook settings output)) ∧
    ∀ report, (a.validateWithScales indices codebook scales settings output).result =
        .ok report →
      report.IsExact (Comparison.ofProducts a indices codebook scales settings output) := by
  constructor
  · intro report h
    obtain ⟨-, -, -, rfl⟩ := Addressing.validate_eq_ok_iff.mp h
    exact Comparison.isExact_report hsize
  · intro report h
    obtain ⟨-, -, -, -, rfl⟩ := Addressing.validateWithScales_eq_ok_iff.mp h
    exact Comparison.isExact_report hsize

/-- Of two mismatches, one of them with a value that is not a number, and a skipped position, a
report limited to one sample counts all three and keeps the first. -/
theorem reports_exact_one_sample :
    ∃ report, ((Addressing.unbounded 1 2).validate ⟨#[0, 0, 0, 7], #[0, 1, 0, 0]⟩
        #[.ofBits 0x3f800000, .ofBits 0x40000000] ⟨.ofBits 0x3c23d70a, 1⟩
        (#[.ofBits 0x3f800000, .ofBits 0x3f800000, .ofBits 0x7fc00000, .ofBits 0] :
          Array Single)).result = .ok report ∧
      report.mismatchCount = 2 ∧ report.outOfRangeCount = 1 ∧
      report.mismatches.map (·.position) = [1] := by
  have hfits : (Addressing.unbounded 1 2).Fits 4 4 2 := by decide
  have h := (reports_exact (Addressing.unbounded 1 2) ⟨#[0, 0, 0, 7], #[0, 1, 0, 0]⟩
    #[.ofBits 0x3f800000, .ofBits 0x40000000] #[] ⟨.ofBits 0x3c23d70a, 1⟩
    (#[.ofBits 0x3f800000, .ofBits 0x3f800000, .ofBits 0x7fc00000, .ofBits 0] : Array Single)
    (by decide)).1 _ (Addressing.validate_eq_ok_iff.mpr ⟨hfits, rfl, by decide, rfl⟩)
  refine ⟨_, Addressing.validate_eq_ok_iff.mpr ⟨hfits, rfl, by decide, rfl⟩,
    h.mismatchCount.trans ?_, h.outOfRangeCount.trans ?_, ?_⟩
  · decide +kernel
  · decide +kernel
  · rw [h.mismatches]
    decide +kernel

end IndexedCodebook.Validation
