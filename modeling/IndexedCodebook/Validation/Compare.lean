import IndexedCodebook.Dequantize
import IndexedCodebook.Validation.Report

/-!
# Validating an output

A validation recomputes every position in double precision and compares it with an output. It
visits the positions in order and never stops at one: `findingAt` says what one position shows, and
a `Tally` counts findings and keeps the first of them. Only lengths and the addressing can make a
validation refuse its inputs. Room for all samples is reserved before the first position, so inputs
that pass are stray under settings that ask for more samples than a sequence can hold.

Source: `quant/validate` 130–306; `SPEC_FULL` §4.5.
-/

namespace IndexedCodebook.Validation

-- A power with a natural exponent is the core library's, also in scope of `Monoid`.
attribute [local instance (20000)] instPowNat

/-- What one position of an output shows. -/
inductive Finding where
  /-- The value is within the tolerance. -/
  | agrees
  | differs (mismatch : Mismatch)
  /-- The indices reach no entry. -/
  | unreachable (skipped : Skipped)
  deriving DecidableEq, Repr

/-- The reference value of an address of a group, in double precision; none beyond the codebook. -/
abbrev Reference := Lookup (Option Double)

namespace Reference

/-- The codebook entry. -/
def entry (codebook : Array Single) : Reference := fun _ address ↦
  .ok (codebook[address.toNat]?.map (·.toDouble))

/-- The codebook entry times the scale of the group, which is read only where there is an entry. -/
def scaled (codebook scales : Array Single) : Reference := fun group address ↦
  match codebook[address.toNat]? with
  | none => .ok none
  | some value => do
      let scale ← Lookup.element scales group
      return some (value.toDouble.mul scale.toDouble)

end Reference

/-- Whether two values differ by no more than the tolerance; with a NaN they do not agree. -/
def within (tolerance expected actual : Double) : Bool := (expected.sub actual).abs.le tolerance

/-- What a position shows whose indices and value are known. -/
def judge (a : Addressing) (entries : Nat) (reference : Reference) (tolerance : Double)
    (position : Nat) (row col : UInt64) (actual : Double) : Except Fault Finding :=
  let skipped : Finding :=
    .unreachable ⟨position, row, col, address? row col a.colCardinality, entries⟩
  match a.resolve? entries row col with
  | none => .ok skipped
  | some address => do
      match ← reference (position / a.groupSize.toNat) address with
      | none => return skipped
      | some expected =>
          if within tolerance expected actual then return .agrees
          else return .differs ⟨position, expected, actual, row, col, address⟩

/-- What a position of an output shows. -/
def findingAt (a : Addressing) (indices : Indices) (entries : Nat) (reference : Reference)
    (tolerance : Double) (output : Array Double) (position : Nat) : Except Fault Finding := do
  let (row, col) ← a.pairAt indices position
  let actual ← Lookup.element output position
  judge a entries reference tolerance position row col actual

/-- Counts of the findings so far, and the first of them. -/
structure Tally where
  mismatchCount : Nat := 0
  outOfRangeCount : Nat := 0
  samples : Array Mismatch := #[]
  events : Array Event := #[]

namespace Tally

/-- Take in one finding. Counts are never limited; samples and notes of either kind are. -/
def add (maxReported : Nat) (t : Tally) : Finding → Tally
  | .agrees => t
  | .differs m =>
      let counted := { t with mismatchCount := t.mismatchCount + 1 }
      if t.samples.size < maxReported then
        { counted with samples := t.samples.push m, events := t.events.push (.mismatch m) }
      else counted
  | .unreachable s =>
      let counted := { t with outOfRangeCount := t.outOfRangeCount + 1 }
      if t.outOfRangeCount < maxReported then
        { counted with events := t.events.push (.skipped s) }
      else counted

/-- The report of a finished tally. -/
def report (t : Tally) (checked : Nat) (tolerance : Single) : Report :=
  ⟨checked, t.mismatchCount, t.outOfRangeCount, t.samples.toList, tolerance⟩

end Tally

/-- Visit all positions of an output in order. -/
def scan (a : Addressing) (indices : Indices) (entries : Nat) (reference : Reference)
    (settings : Settings) (output : Array Double) : Except Fault Tally :=
  (List.range output.size).foldlM (fun tally position ↦ do
    let finding ← findingAt a indices entries reference settings.tolerance.toDouble output position
    return tally.add settings.maxReported.toNat finding) {}

/-- The most samples that a sequence can hold: a sample takes 48 bytes, and a sequence takes
`2 ^ 63 - 1` bytes at most. -/
def sampleCapacity : Nat := (2 ^ (63 : Nat) - 1) / 48

namespace Settings

/-- A sequence can hold all samples that a report may. -/
def Reservable (s : Settings) : Prop := s.maxReported.toNat ≤ sampleCapacity

instance (s : Settings) : Decidable s.Reservable :=
  inferInstanceAs (Decidable (s.maxReported.toNat ≤ sampleCapacity))

/-- Reserve room for all samples that a report may hold. The capacity of a sequence is the limit;
memory that runs out below it is not modelled. `quant/validate` 245. -/
def reserve (s : Settings) : Except Fault Unit :=
  if s.Reservable then .ok () else .error .stray

end Settings

/-- Reserve room for the samples, scan an output and note what was found, and the summary last.
`compare`, `quant/validate` 226–306. -/
def inspect (a : Addressing) (indices : Indices) (entries : Nat) (reference : Reference)
    (settings : Settings) (output : Array Double) : Traced Report := do
  .ofResult settings.reserve
  let tally ← .ofResult (scan a indices entries reference settings output)
  let report := tally.report output.size settings.tolerance
  .emitAll tally.events.toList
  .emit (.finished report.checked report.mismatchCount report.outOfRangeCount report.passed)
  return report

/-- The lengths fit together, that of the output included; the result is the number of groups.
`check_output_len`, `quant/validate` 206–224. -/
def checkOutput (a : Addressing) (indices : Indices) (entries output : Nat) : Traced Nat := do
  let shape ← a.shapeOf indices.rows.size indices.cols.size entries
  if output ≠ shape.elements then .fail (.shape (.outputLength output shape.elements))
  else return shape.groups

variable {f : Format}

/-- The values of an output in double precision. -/
def widen (output : Array (Word f)) : Array Double := output.map (·.convert binary64)

end IndexedCodebook.Validation

namespace IndexedCodebook

open Validation

namespace Addressing

variable {f : Format}

/-- Compare an output with the codebook entries that its indices reach. `quant/validate` 140–163. -/
def validate (a : Addressing) (indices : Indices) (codebook : Array Single) (settings : Settings)
    (output : Array (Word f)) : Traced Report := do
  let _ ← checkOutput a indices codebook.size output.size
  inspect a indices codebook.size (.entry codebook) settings (widen output)

/-- Compare an output with the codebook entries that its indices reach, times the scales.
`validate_scaled`, `quant/validate` 166–203. -/
def validateWithScales (a : Addressing) (indices : Indices) (codebook scales : Array Single)
    (settings : Settings) (output : Array (Word f)) : Traced Report := do
  let groups ← checkOutput a indices codebook.size output.size
  .ofResult (checkScales scales.size groups)
  inspect a indices codebook.size (.scaled codebook scales) settings (widen output)

end Addressing

end IndexedCodebook
