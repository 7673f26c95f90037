import IndexedCodebook.Event
import IndexedCodebook.Decimal.Fixed

/-!
# Validation reports

A report counts the positions that were checked, those outside the tolerance and those that were
skipped because their indices reach no entry, and holds samples of the mismatches. It passes if both
counts are zero.

Source: `quant/validate` 19–128; `SPEC_FULL` §4.5.
-/

namespace IndexedCodebook.Validation

/-- How a validation compares. `ValidatorConfig`, `quant/validate` 26–40. -/
structure Settings where
  /-- The largest difference that counts as equal. -/
  tolerance : Single := Word.ofBits 0x3c23d70a
  /-- How many mismatches a report holds, and how many skipped positions are noted. -/
  maxReported : UInt64 := 5
  deriving DecidableEq, Repr

/-- The outcome of a validation. `ValidationReport`, `quant/validate` 71–82. -/
structure Report where
  /-- Positions of the output. -/
  checked : Nat
  /-- Positions outside the tolerance. -/
  mismatchCount : Nat
  /-- Positions whose indices reach no entry. -/
  outOfRangeCount : Nat
  /-- The first mismatches by position. -/
  mismatches : List Mismatch
  tolerance : Single
  deriving DecidableEq, Repr

namespace Report

/-- Whether no position mismatched and none was skipped. `quant/validate` 86–88. -/
def passed (r : Report) : Bool := r.mismatchCount == 0 && r.outOfRangeCount == 0

/-- A report that does not pass, as a refusal with its full counts. `into_result`, `quant/validate`
91–102. -/
def toResult (r : Report) : Except Fault Report :=
  if r.passed then .ok r
  else .error (.tolerance ⟨r.mismatchCount, r.outOfRangeCount, r.checked, r.tolerance⟩)

/-- The line of one mismatch; values have four decimal places. -/
def mismatchLine (m : Mismatch) : String :=
  s!"  [{m.position}] expected {m.expected.fixed 4}, got {m.actual.fixed 4} "
    ++ s!"(row {m.row}, col {m.col}, address {m.address})"

/-- The first line of a report. -/
def summaryLine (r : Report) : String :=
  let tolerance := RealStyle.message.text r.tolerance
  if r.passed then s!"PASS: {r.checked} elements within tolerance {tolerance}"
  else
    s!"FAIL: {r.mismatchCount} of {r.checked} elements exceed tolerance {tolerance}, "
      ++ s!"{r.outOfRangeCount} out of range"

/-- A report in words: its summary and, unless it passes, a line for each mismatch. `quant/validate`
106–127. -/
def text (r : Report) : String :=
  let details := if r.passed then [] else r.mismatches.map mismatchLine
  "\n".intercalate (r.summaryLine :: details)

end Report

end IndexedCodebook.Validation
