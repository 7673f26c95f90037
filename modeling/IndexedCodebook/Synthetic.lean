import IndexedCodebook.Dequantize
import IndexedCodebook.Random.Draw

/-!
# Synthetic inputs

Random indices within their cardinalities over a codebook whose entry `i` is the number `i`, or its
remainder by the size of the address space. The same seed gives the same inputs.

Source: `quant/synth` 13–95; `SPEC_FULL` §4.6.
-/

namespace IndexedCodebook.Synthetic

/-- The inputs of a dequantization. `CodebookInputs`, `quant/synth` 14–18. -/
structure Inputs where
  indices : Indices
  codebook : Array Single
  deriving DecidableEq, Repr

/-- The codebook whose entry `i` is the number `i mod period`; period zero counts as one. A sequence
takes `2 ^ 63 - 1` bytes at most, so an actual codebook has fewer than `2 ^ 61` entries; here there
is room for any number. `arange_codebook`, `quant/synth` 92–95. -/
def ramp (entries period : Nat) : Array Single :=
  (Array.range entries).map fun i ↦ Word.ofNat binary32 (i % max period 1)

/-- How many rows indices are drawn from: the row cardinality or else the rows of the codebook. -/
def rowCount (a : Addressing) (entries : Nat) : Nat :=
  match a.rowCardinality with
  | some rows => rows.toNat
  | none => entries / a.colCardinality.toNat

/-- Indices below a cardinality fit in a byte. `max_index`, `quant/synth` 80–89. -/
def checkByte (name : Argument) (cardinality : Nat) : Except Fault Unit :=
  if 256 < cardinality then .error (.argument name (.byteIndices cardinality)) else .ok ()

/-- Random indices can be drawn for the given number of groups. `quant/synth` 40–61. -/
def check (a : Addressing) (groups entries : Nat) : Except Fault Unit := do
  a.check
  if groups = 0 then .error (.argument .numGroups .zero)
  else if rowCount a entries = 0 then
    .error (.argument .codebookLength (.noRow entries a.colCardinality))
  else
    checkByte .rowCardinality (rowCount a entries)
    checkByte .colCardinality a.colCardinality.toNat

/-- Draw all rows, then all columns. Here too there is room for any number of indices, of which an
actual sequence holds fewer than `2 ^ 63`. `quant/synth` 63–69. -/
def drawIndices (rows cols groups elements : Nat) (words : List UInt32) : Option Indices := do
  let (rowValues, words) ← Random.draws rows groups words
  let (colValues, _) ← Random.draws cols elements words
  return ⟨rowValues.toArray, colValues.toArray⟩

/-- Random inputs from a supply of random words; a supply that runs out is a stray read. The
codebook repeats after the address space. -/
def fromWords (a : Addressing) (groups entries : Nat) (words : List UInt32) :
    Except Fault Inputs := do
  check a groups entries
  match drawIndices (rowCount a entries) a.colCardinality.toNat groups
      (groups * a.groupSize.toNat) words with
  | none => .error .stray
  | some indices =>
      let period := match a.space? with
        | some space => space.toNat
        | none => entries
      return ⟨indices, ramp entries period⟩

/-- Random inputs of a seed. The supply holds more than twice as many words as are drawn, and one in
16 million words is passed over. `random`, `quant/synth` 34–76. -/
def random (a : Addressing) (groups entries : Nat) (seed : UInt64) : Except Fault Inputs := do
  check a groups entries
  let drawn := groups + groups * a.groupSize.toNat
  fromWords a groups entries (Random.stream seed (drawn / 8 + 16))

end IndexedCodebook.Synthetic
