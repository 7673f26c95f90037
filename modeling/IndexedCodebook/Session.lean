import IndexedCodebook.Synthetic
import IndexedCodebook.Validation.Compare

/-!
# Sessions

A session keeps settings, inputs, an output and the last validation report between actions. An
action that is refused leaves the session as it was, and `Session.run` goes on with the next one.

Source: the operations keep nothing between calls (`SPEC_FULL` §5). A session is what a caller of
`quant` keeps who goes on after refusals.
-/

namespace IndexedCodebook

/-- What a session holds. -/
structure Session where
  addressing : Addressing := {}
  settings : Validation.Settings := {}
  indices : Indices := ⟨#[], #[]⟩
  codebook : Array Single := #[]
  scales : Array Single := #[]
  output : Array Single := #[]
  lastReport : Option Validation.Report := none
  deriving DecidableEq, Repr

/-- What can be done in a session. -/
inductive Action where
  | useAddressing (a : Addressing)
  | useSettings (s : Validation.Settings)
  /-- Replace indices and codebook by random ones. -/
  | random (groups entries : Nat) (seed : UInt64)
  | ramp (entries period : Nat)
  | useRows (xs : Array UInt64)
  | useCols (xs : Array UInt64)
  | useCodebook (xs : Array Single)
  | useScales (xs : Array Single)
  | truncateCodebook (length : Nat)
  | truncateOutput (length : Nat)
  | setRow (i : Nat) (x : UInt64)
  | setCol (i : Nat) (x : UInt64)
  | setEntry (i : Nat) (x : Single)
  | setOutput (i : Nat) (x : Single)
  | dequantize
  | dequantizeWithScales
  | dequantizeBFloat
  | validate
  | validateWithScales
  | recallReport
  deriving DecidableEq, Repr

/-- What an action answers. -/
inductive Reply where
  | addressing (a : Addressing)
  | settings (s : Validation.Settings)
  | indices (i : Indices)
  | length (n : Nat)
  | done
  | values (xs : Array Single)
  | report (r : Option Validation.Report)
  deriving DecidableEq, Repr

namespace Session

/-- Keep an output and answer it. -/
def keepOutput (s : Session) (xs : Array Single) : Session × Reply :=
  ({ s with output := xs }, .values xs)

/-- Keep a report and answer it. -/
def keepReport (s : Session) (r : Validation.Report) : Session × Reply :=
  ({ s with lastReport := some r }, .report (some r))

/-- Keep a codebook and answer its length. -/
def keepCodebook (s : Session) (xs : Array Single) : Session × Reply :=
  ({ s with codebook := xs }, .length xs.size)

/-- One action: the session after it and its answer. -/
def step (s : Session) : Action → Traced (Session × Reply)
  | .useAddressing a => return ({ s with addressing := a }, .addressing a)
  | .useSettings v => return ({ s with settings := v }, .settings v)
  | .random groups entries seed => do
      let inputs ← .ofResult (Synthetic.random s.addressing groups entries seed)
      return ({ s with indices := inputs.indices, codebook := inputs.codebook },
        .indices inputs.indices)
  | .ramp entries period => return s.keepCodebook (Synthetic.ramp entries period)
  | .useRows xs => return ({ s with indices := { s.indices with rows := xs } }, .length xs.size)
  | .useCols xs => return ({ s with indices := { s.indices with cols := xs } }, .length xs.size)
  | .useCodebook xs => return s.keepCodebook xs
  | .useScales xs => return ({ s with scales := xs }, .length xs.size)
  | .truncateCodebook n => return s.keepCodebook (s.codebook.take n)
  | .truncateOutput n =>
      return ({ s with output := s.output.take n }, .length (s.output.take n).size)
  | .setRow i x =>
      return ({ s with indices := { s.indices with rows := s.indices.rows.setIfInBounds i x } },
        .done)
  | .setCol i x =>
      return ({ s with indices := { s.indices with cols := s.indices.cols.setIfInBounds i x } },
        .done)
  | .setEntry i x => return ({ s with codebook := s.codebook.setIfInBounds i x }, .done)
  | .setOutput i x => return ({ s with output := s.output.setIfInBounds i x }, .done)
  | .dequantize => s.keepOutput <$> s.addressing.dequantize s.indices s.codebook
  | .dequantizeWithScales =>
      s.keepOutput <$> s.addressing.dequantizeWithScales s.indices s.codebook s.scales
  | .dequantizeBFloat => do
      let output ← s.addressing.dequantizeBFloat s.indices s.codebook
      return s.keepOutput (output.map (·.convert binary32))
  | .validate =>
      s.keepReport <$> s.addressing.validate s.indices s.codebook s.settings s.output
  | .validateWithScales =>
      s.keepReport <$>
        s.addressing.validateWithScales s.indices s.codebook s.scales s.settings s.output
  | .recallReport => return (s, .report s.lastReport)

/-- Run actions in order: the answer to each, and all events. -/
def run (s : Session) : List Action → List (Except Fault Reply) × List Event
  | [] => ([], [])
  | action :: actions =>
      let outcome := s.step action
      let (answer, next) : Except Fault Reply × Session := match outcome.result with
        | .ok (s', reply) => (.ok reply, s')
        | .error fault => (.error fault, s)
      let (answers, events) := run next actions
      (answer :: answers, outcome.events ++ events)

end Session

end IndexedCodebook
