import IndexedCodebook.Proofs.Binary.Order
import IndexedCodebook.Proofs.Validation.Exact

/-!
# Looser settings find no new faults

A value that is within a tolerance is within every tolerance that is not below it
(`within_of_le`). So of two comparisons of the same output the one with the larger tolerance finds
some of the mismatches of the other one, the same in everything, and skips the same positions
(`Comparison.loosened_report`). How many mismatches a report may hold changes nothing but how many
it holds, as long as room for them can be reserved. The main result, for both kinds of validation,
is `loosening_finds_no_faults`; `larger_limit_not_reserved` is a limit that is too large.
-/

namespace IndexedCodebook

namespace Outcome

/-- Both fail in the same way, or both succeed with related values. -/
inductive Related {ε α β : Type} (R : α → β → Prop) : Except ε α → Except ε β → Prop
  | error (e : ε) : Related R (.error e) (.error e)
  | ok {a : α} {b : β} (h : R a b) : Related R (.ok a) (.ok b)

/-- After the same step, related steps are related. -/
theorem Related.bind {ε α β γ : Type} {R : β → γ → Prop} {x : Except ε α} {f : α → Except ε β}
    {g : α → Except ε γ} (h : ∀ a, Related R (f a) (g a)) : Related R (x >>= f) (x >>= g) := by
  cases x with
  | error e => exact .error e
  | ok a => exact h a

private theorem Related.exists_ok {ε α β : Type} {R : α → β → Prop} {a : α} {y : Except ε β}
    (h : Related R (.ok a) y) : ∃ b, y = .ok b ∧ R a b := by
  cases h with
  | ok h => exact ⟨_, rfl, h⟩

end Outcome

namespace Validation

private theorem within_of_le {t u expected actual : Double} (htu : t.le u = true)
    (h : within t expected actual = true) : within u expected actual = true :=
  Word.le_trans h htu

namespace Comparison

variable {c : Comparison} {t : Settings}

/-- The same comparison with other settings. -/
def withSettings (c : Comparison) (t : Settings) : Comparison := { c with settings := t }

/-- All mismatches, in order. -/
def mismatches (c : Comparison) : List Mismatch :=
  ((List.range c.size).filter (c.Mismatched ·)).map c.mismatchAt

private theorem mismatches_report_eq_take (hsize : c.entries < 2 ^ 64) :
    c.report.mismatches = c.mismatches.take c.settings.maxReported.toNat := by
  rw [mismatches_report hsize, mismatches, List.map_take]

private theorem mismatchCount_report_eq_length (hsize : c.entries < 2 ^ 64) :
    c.report.mismatchCount = c.mismatches.length := by
  rw [mismatchCount_report hsize, mismatches, List.length_map, List.countP_eq_length_filter]

private theorem mismatched_of_withSettings (h : c.settings.tolerance.le t.tolerance = true)
    {i : Nat} (hi : (c.withSettings t).Mismatched i) : c.Mismatched i := by
  have hdouble : c.settings.tolerance.toDouble.le t.tolerance.toDouble = true :=
    Word.convert_le_convert (by decide) (by decide) h
  exact ⟨hi.1, fun hagrees ↦ hi.2 (within_of_le hdouble hagrees)⟩

private theorem mismatches_withSettings_sublist (h : c.settings.tolerance.le t.tolerance = true) :
    (c.withSettings t).mismatches.Sublist c.mismatches := by
  have hfilter : ((List.range c.size).filter ((c.withSettings t).Mismatched ·)).Sublist
      ((List.range c.size).filter (c.Mismatched ·)) := by
    apply List.monotone_filter_right
    intro i hi
    exact decide_eq_true (mismatched_of_withSettings h (of_decide_eq_true hi))
  exact hfilter.map c.mismatchAt

private theorem outOfRangeCount_withSettings (c : Comparison) (t : Settings) :
    (c.withSettings t).report.outOfRangeCount = c.report.outOfRangeCount := by
  rw [outOfRangeCount_report_eq_countP, outOfRangeCount_report_eq_countP]
  rfl

/-- What looser settings change in the report on a comparison: `r` is the report before and `s` the
report after the change. -/
structure Loosened (c : Comparison) (t : Settings) (r s : Report) : Prop where
  checked_eq : s.checked = r.checked
  outOfRangeCount_eq : s.outOfRangeCount = r.outOfRangeCount
  /-- Every mismatch was one before, with the same position and values. -/
  mismatches_sublist : (c.withSettings t).mismatches.Sublist c.mismatches
  /-- The reports count all mismatches and hold the first ones. -/
  mismatchCount_eq : r.mismatchCount = c.mismatches.length ∧
    s.mismatchCount = (c.withSettings t).mismatches.length
  mismatches_eq : r.mismatches = c.mismatches.take c.settings.maxReported.toNat ∧
    s.mismatches = (c.withSettings t).mismatches.take t.maxReported.toNat
  mismatchCount_le : s.mismatchCount ≤ r.mismatchCount
  passed_of_passed : r.passed = true → s.passed = true
  /-- At the same tolerance a larger limit adds mismatches behind those that were held. -/
  of_same_tolerance : t.tolerance.le c.settings.tolerance = true →
    s.mismatchCount = r.mismatchCount ∧
      (c.settings.maxReported ≤ t.maxReported →
        r.mismatches = s.mismatches.take c.settings.maxReported.toNat)

/-- The reports on a comparison before and after its settings become looser. -/
theorem loosened_report (hsize : c.entries < 2 ^ 64)
    (h : c.settings.tolerance.le t.tolerance = true) :
    c.Loosened t c.report (c.withSettings t).report := by
  have hsizeT : (c.withSettings t).entries < 2 ^ 64 := hsize
  have hsublist := mismatches_withSettings_sublist h
  have hcount := mismatchCount_report_eq_length hsize
  have hcountT := mismatchCount_report_eq_length hsizeT
  have hskipped := c.outOfRangeCount_withSettings t
  have hle : (c.withSettings t).report.mismatchCount ≤ c.report.mismatchCount := by
    rw [hcount, hcountT]
    exact hsublist.length_le
  constructor
  · rfl
  · exact hskipped
  · exact hsublist
  · exact ⟨hcount, hcountT⟩
  · exact ⟨mismatches_report_eq_take hsize, mismatches_report_eq_take hsizeT⟩
  · exact hle
  · intro hpassed
    rw [Report.passed, Bool.and_eq_true, beq_iff_eq, beq_iff_eq] at hpassed ⊢
    omega
  · intro hback
    have hsame : (c.withSettings t).mismatches = c.mismatches := by
      have hsublistBack : c.mismatches.Sublist (c.withSettings t).mismatches :=
        mismatches_withSettings_sublist (c := c.withSettings t) (t := c.settings) hback
      exact hsublist.antisymm hsublistBack
    refine ⟨by rw [hcount, hcountT, hsame], fun hlimit ↦ ?_⟩
    rw [UInt64.le_iff_toNat_le] at hlimit
    rw [mismatches_report_eq_take hsize, mismatches_report_eq_take hsizeT, hsame, List.take_take]
    congr 1
    exact (Nat.min_eq_left hlimit).symm

end Comparison

open Outcome

/-- The second outcome is the refusal that the first one is, or it is stray where the first one is a
report. -/
structure StrayInstead (x y : Except Fault Report) : Prop where
  of_refused : ∀ fault, x = .error fault → y = .error fault
  of_report : ∀ r, x = .ok r → y = .error .stray

/-- How the outcome `y` after a change of the settings follows from the outcome `x` before it. Where
room for the samples can be reserved for one side alone, the other side is stray instead. -/
structure Comparison.Follows (c : Comparison) (t : Settings) (x y : Except Fault Report) :
    Prop where
  related : (c.settings.Reservable ↔ t.Reservable) → Related (c.Loosened t) x y
  stray_after : c.settings.Reservable → ¬ t.Reservable → StrayInstead x y
  stray_before : ¬ c.settings.Reservable → t.Reservable → StrayInstead y x

private theorem strayInstead {α : Type} (checks : Except Fault α) {s t : Settings}
    (hs : s.Reservable) (ht : ¬ t.Reservable) (r r' : Report) :
    StrayInstead (checks >>= fun _ ↦ s.reserve >>= fun _ ↦ .ok r)
      (checks >>= fun _ ↦ t.reserve >>= fun _ ↦ .ok r') := by
  rw [Settings.reserve_eq_ok hs, Settings.reserve_eq_error ht]
  cases checks with
  | error fault => exact ⟨fun _ h ↦ h, by rintro _ ⟨⟩⟩
  | ok x => exact ⟨by rintro _ ⟨⟩, fun _ _ ↦ rfl⟩

/-- After the same checks, outcomes with loosened reports follow one from the other. -/
theorem Comparison.follows {α : Type} {c : Comparison} {t : Settings} (checks : Except Fault α)
    (h : c.Loosened t c.report (c.withSettings t).report) :
    c.Follows t (checks >>= fun _ ↦ c.settings.reserve >>= fun _ ↦ .ok c.report)
      (checks >>= fun _ ↦ t.reserve >>= fun _ ↦ .ok (c.withSettings t).report) := by
  constructor
  · intro hsame
    refine Related.bind fun _ ↦ ?_
    by_cases ht : t.Reservable
    · rw [Settings.reserve_eq_ok ht, Settings.reserve_eq_ok (hsame.mpr ht)]
      exact .ok h
    · rw [Settings.reserve_eq_error ht, Settings.reserve_eq_error (mt hsame.mp ht)]
      exact .error Fault.stray
  · exact fun hs ht ↦ strayInstead checks hs ht _ _
  · exact fun hs ht ↦ strayInstead checks ht hs _ _

/-- Looser settings find no new faults. If the tolerance of `t` is not below that of `s`, then two
validations of the same output that differ in these settings, with or without scales, fail in the
same way or give two reports on the same positions: the second one finds some of the mismatches of
the first one and skips the same positions, and it passes if the first one does. At the same
tolerance all counts are equal, and a larger limit only adds mismatches at the end. Where room for
the samples can be reserved on one side alone, the other side is stray instead of a report. -/
theorem loosening_finds_no_faults {f : Format} (a : Addressing) (indices : Indices)
    (codebook scales : Array Single) (output : Array (Word f)) (s t : Settings)
    (hsize : codebook.size < 2 ^ 64) (hle : s.tolerance.le t.tolerance = true) :
    (Comparison.ofEntries a indices codebook s output).Follows t
      (a.validate indices codebook s output).result
      (a.validate indices codebook t output).result ∧
    (Comparison.ofProducts a indices codebook scales s output).Follows t
      (a.validateWithScales indices codebook scales s output).result
      (a.validateWithScales indices codebook scales t output).result := by
  constructor
  · have hreports := Comparison.loosened_report (t := t)
      (c := .ofEntries a indices codebook s output) hsize hle
    rw [Addressing.result_validate, Addressing.result_validate]
    exact Comparison.follows _ hreports
  · have hreports := Comparison.loosened_report (t := t)
      (c := .ofProducts a indices codebook scales s output) hsize hle
    rw [Addressing.result_validateWithScales, Addressing.result_validateWithScales]
    exact Comparison.follows _ hreports

/-- From a tolerance of 0.25 to one of 0.5, a value that is off by 0.5 is no mismatch any more, one
that is not a number stays one, and the position behind the codebook stays skipped. The report
before had room for one sample. -/
theorem loosening_finds_no_faults_one_left :
    ∃ r s, ((Addressing.unbounded 1 2).validate ⟨#[0, 0, 0, 7], #[0, 1, 0, 0]⟩
        #[.ofBits 0x3f800000, .ofBits 0x40000000] ⟨.ofBits 0x3e800000, 1⟩
        (#[.ofBits 0x3f800000, .ofBits 0x3fc00000, .ofBits 0x7fc00000, .ofBits 0] :
          Array Single)).result = .ok r ∧
      ((Addressing.unbounded 1 2).validate ⟨#[0, 0, 0, 7], #[0, 1, 0, 0]⟩
        #[.ofBits 0x3f800000, .ofBits 0x40000000] ⟨.ofBits 0x3f000000, 5⟩
        (#[.ofBits 0x3f800000, .ofBits 0x3fc00000, .ofBits 0x7fc00000, .ofBits 0] :
          Array Single)).result = .ok s ∧
      r.mismatches.map (·.position) = [1] ∧ s.mismatches.map (·.position) = [2] ∧
      s.mismatchCount < r.mismatchCount ∧ r.outOfRangeCount = 1 ∧ s.outOfRangeCount = 1 := by
  have hfits : (Addressing.unbounded 1 2).Fits 4 4 2 := by decide
  obtain ⟨hrelated, -⟩ := loosening_finds_no_faults (Addressing.unbounded 1 2)
    ⟨#[0, 0, 0, 7], #[0, 1, 0, 0]⟩ #[.ofBits 0x3f800000, .ofBits 0x40000000] #[]
    (#[.ofBits 0x3f800000, .ofBits 0x3fc00000, .ofBits 0x7fc00000, .ofBits 0] : Array Single)
    ⟨.ofBits 0x3e800000, 1⟩ ⟨.ofBits 0x3f000000, 5⟩ (by decide) (by decide +kernel)
  have hboth := hrelated.related (by decide)
  rw [Addressing.validate_eq_ok_iff.mpr ⟨hfits, rfl, by decide, rfl⟩] at hboth
  obtain ⟨s, hafter, h⟩ := hboth.exists_ok
  have hcount := h.mismatchCount_eq
  refine ⟨_, s, Addressing.validate_eq_ok_iff.mpr ⟨hfits, rfl, by decide, rfl⟩, hafter, ?_, ?_, ?_,
    ?_, ?_⟩
  · rw [h.mismatches_eq.1]
    decide +kernel
  · rw [h.mismatches_eq.2]
    decide +kernel
  · rw [hcount.1, hcount.2]
    decide +kernel
  · decide +kernel
  · rw [h.outOfRangeCount_eq]
    decide +kernel

/-- At the same tolerance, a limit of five samples gives a report and the largest 64-bit number as
limit gives none. -/
theorem larger_limit_not_reserved :
    ((Addressing.unbounded 1 1).validate ⟨#[0], #[0]⟩ #[.ofBits 0x40000000]
        { maxReported := 0xffffffffffffffff } (#[.ofBits 0x40000000] : Array Single)).result =
      .error .stray ∧
    ∃ report, ((Addressing.unbounded 1 1).validate ⟨#[0], #[0]⟩ #[.ofBits 0x40000000]
        { maxReported := 5 } (#[.ofBits 0x40000000] : Array Single)).result = .ok report := by
  have hfits : (Addressing.unbounded 1 1).Fits 1 1 1 := by decide
  exact ⟨Addressing.validate_eq_stray hfits rfl (by decide), _,
    Addressing.validate_eq_ok_iff.mpr ⟨hfits, rfl, by decide, rfl⟩⟩

end Validation

end IndexedCodebook
