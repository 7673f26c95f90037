import IndexedCodebook.Proofs.Validation.Exact
import IndexedCodebook.Session

/-!
# Runs of a session

A refused action leaves a session as it was, so the answers to the other actions of a run are those
of the run without it (`answers_accepted`). Every report that a run answers counts no position twice
and holds no more mismatches than it counts (`balanced_of_run`): one action preserves that of the
last report (`balanced_of_step`).
-/

namespace IndexedCodebook

namespace Validation

/-- The counts of a report fit together. -/
structure Report.Balanced (r : Report) : Prop where
  counts_le : r.mismatchCount + r.outOfRangeCount ≤ r.checked
  samples_le : r.mismatches.length ≤ r.mismatchCount

private theorem length_mismatch?_add_skipped?_le (findings : List Finding) :
    (findings.filterMap Finding.mismatch?).length +
      (findings.filterMap Finding.skipped?).length ≤ findings.length := by
  induction findings with
  | nil => exact Nat.le_refl 0
  | cons finding findings ih =>
    -- a finding is a mismatch or a skipped position, and never both
    cases finding with
    | agrees | differs m | unreachable s =>
      simp only [List.filterMap_cons, Finding.mismatch?, Finding.skipped?, List.length_cons]
      omega

/-- The report on a comparison has counts that fit together. -/
theorem Comparison.balanced_report (c : Comparison) : c.report.Balanced := by
  have h := c.summarizes_tally
  have hlength : c.findings.length = c.size := by rw [findings, List.length_map, List.length_range]
  constructor
  · show c.tally.mismatchCount + c.tally.outOfRangeCount ≤ c.size
    rw [h.mismatchCount, h.outOfRangeCount, ← hlength]
    exact length_mismatch?_add_skipped?_le c.findings
  · show c.tally.samples.toList.length ≤ c.tally.mismatchCount
    rw [h.samples, h.mismatchCount, List.length_take]
    exact Nat.min_le_right _ _

end Validation

namespace Session

open Outcome Validation

variable {s s' : Session} {action : Action}

/-- The session after an action; a refused one changes nothing. -/
def next (s : Session) (action : Action) : Session :=
  match (s.step action).result with
  | .ok (s', _) => s'
  | .error _ => s

/-- What an action answers. -/
def answer (s : Session) (action : Action) : Except Fault Reply :=
  (s.step action).result.map Prod.snd

/-- The session after several actions. -/
def after (s : Session) (actions : List Action) : Session := actions.foldl next s

/-- The actions of a run that are not refused in it. -/
def accepted (s : Session) : List Action → List Action
  | [] => []
  | action :: actions =>
      if (s.answer action).isOk then action :: accepted (s.next action) actions
      else accepted s actions

/-- A run answers its first action and goes on with the session after it. -/
theorem run_cons (s : Session) (action : Action) (actions : List Action) :
    s.run (action :: actions) =
      (s.answer action :: ((s.next action).run actions).1,
        (s.step action).events ++ ((s.next action).run actions).2) := by
  rw [run, answer, next]
  cases (s.step action).result with
  | error fault => rfl
  | ok outcome => rfl

/-- A refused action leaves the session as it was. -/
theorem next_of_refused (h : (s.answer action).isOk = false) : s.next action = s := by
  rw [answer] at h
  rw [next]
  cases hr : (s.step action).result with
  | error fault => rfl
  | ok outcome =>
    rw [hr] at h
    cases h

/-- A run of some actions and then others goes on with the session after the first ones. -/
theorem answers_append (s : Session) (actions later : List Action) :
    (s.run (actions ++ later)).1 = (s.run actions).1 ++ ((s.after actions).run later).1 := by
  induction actions generalizing s with
  | nil => rfl
  | cons action actions ih =>
    rw [List.cons_append, run_cons, run_cons, ih]
    rfl

/-- Without its refused actions, a run ends in the same session. -/
theorem after_accepted (s : Session) (actions : List Action) :
    s.after (s.accepted actions) = s.after actions := by
  induction actions generalizing s with
  | nil => rfl
  | cons action actions ih =>
    rw [accepted]
    split
    · exact ih (s.next action)
    · next h =>
      rw [ih s, after, after, List.foldl_cons, next_of_refused (Bool.eq_false_of_not_eq_true h)]

/-- Without its refused actions, a run gives the same answers to all others. -/
theorem answers_accepted (s : Session) (actions : List Action) :
    (s.run (s.accepted actions)).1 = (s.run actions).1.filter (·.isOk) := by
  induction actions generalizing s with
  | nil => rfl
  | cons action actions ih =>
    rw [accepted, run_cons]
    split
    · next h => rw [run_cons, List.filter_cons_of_pos h, ih]
    · next h =>
      rw [List.filter_cons_of_neg h, ih, next_of_refused (Bool.eq_false_of_not_eq_true h)]

/-- The last report of a session, if there is one, has counts that fit together. -/
def Balanced (s : Session) : Prop := ∀ r ∈ s.lastReport, r.Balanced

private theorem balanced_keepReport {r : Report} (h : r.Balanced) :
    (s.keepReport r).1.Balanced ∧
      ∀ r', (s.keepReport r).2 = .report (some r') → r'.Balanced := by
  refine ⟨fun r' hr ↦ ?_, fun r' hr ↦ ?_⟩
  · cases hr
    exact h
  · cases hr
    exact h

/-- An action keeps the counts of the last report fitting, and answers no other reports. -/
theorem balanced_of_step {reply : Reply} (h : s.Balanced)
    (hstep : (s.step action).result = .ok (s', reply)) :
    s'.Balanced ∧ ∀ r, reply = .report (some r) → r.Balanced := by
  cases action with
  | validate =>
    rw [step, Traced.result_map] at hstep
    obtain ⟨report, hr, hkeep⟩ := bind_eq_ok_iff.mp hstep
    obtain ⟨-, -, -, rfl⟩ := Addressing.validate_eq_ok_iff.mp hr
    cases hkeep
    exact balanced_keepReport (Comparison.balanced_report _)
  | validateWithScales =>
    rw [step, Traced.result_map] at hstep
    obtain ⟨report, hr, hkeep⟩ := bind_eq_ok_iff.mp hstep
    obtain ⟨-, -, -, -, rfl⟩ := Addressing.validateWithScales_eq_ok_iff.mp hr
    cases hkeep
    exact balanced_keepReport (Comparison.balanced_report _)
  | recallReport =>
    cases hstep
    exact ⟨h, fun r hr ↦ h r (Reply.report.inj hr)⟩
  | random | dequantizeBFloat =>
    rw [step, Traced.result_bind] at hstep
    obtain ⟨value, -, hkeep⟩ := bind_eq_ok_iff.mp hstep
    cases hkeep
    exact ⟨h, by rintro _ ⟨⟩⟩
  | dequantize | dequantizeWithScales =>
    rw [step, Traced.result_map] at hstep
    obtain ⟨value, -, hkeep⟩ := bind_eq_ok_iff.mp hstep
    cases hkeep
    exact ⟨h, by rintro _ ⟨⟩⟩
  | _ =>
    cases hstep
    exact ⟨h, by rintro _ ⟨⟩⟩

/-- So does a whole run. -/
theorem balanced_of_run (h : s.Balanced) (actions : List Action) :
    (s.after actions).Balanced ∧
      ∀ r, .ok (.report (some r)) ∈ (s.run actions).1 → r.Balanced := by
  induction actions generalizing s with
  | nil => exact ⟨h, fun r hr ↦ by cases hr⟩
  | cons action actions ih =>
    rw [run_cons]
    cases hr : (s.step action).result with
    | error fault =>
      have hnext : s.next action = s := by rw [next, hr]
      obtain ⟨hafter, hanswers⟩ := ih h
      rw [after, List.foldl_cons, hnext]
      refine ⟨hafter, fun r hmem ↦ hanswers r ?_⟩
      rw [answer, hr] at hmem
      simpa [Except.map] using hmem
    | ok outcome =>
      obtain ⟨s', reply⟩ := outcome
      obtain ⟨hbalanced, hreply⟩ := balanced_of_step h hr
      have hnext : s.next action = s' := by rw [next, hr]
      obtain ⟨hafter, hanswers⟩ := ih hbalanced
      rw [after, List.foldl_cons, hnext]
      refine ⟨hafter, fun r hmem ↦ ?_⟩
      rw [answer, hr] at hmem
      rcases List.mem_cons.mp hmem with hfirst | hlater
      · exact hreply r (Except.ok.inj hfirst).symm
      · exact hanswers r hlater

end Session

end IndexedCodebook
