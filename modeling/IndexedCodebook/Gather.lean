import IndexedCodebook.Addressing.Positions
import IndexedCodebook.Binary.Arithmetic

/-!
# Gathering entries group by group

The output is filled by one task per group, which reads the row index of its group once and writes
the positions of its group and no others, so the tasks may run in any order. A task adds and
multiplies 64-bit numbers without a check and does not compare column indices with their
cardinality: both are the business of whoever calls `gather`. Reading beyond the codebook or the
scales is a stray read.

Source: `quant/cpu/kernels/codebook` 15–111; `SPEC_FULL` §4.3.
-/

namespace IndexedCodebook

/-- What is written for an address of a group. -/
abbrev Lookup (α : Type) := Nat → UInt64 → Except Fault α

namespace Lookup

/-- An element of a sequence; outside the sequence the read is stray. -/
def element {α : Type} (xs : Array α) (i : Nat) : Except Fault α :=
  match xs[i]? with
  | some x => .ok x
  | none => .error .stray

/-- The codebook entry itself. `codebook_gather_f32`, `quant/cpu/kernels/codebook` 23–39. -/
def entry (codebook : Array Single) : Lookup Single := fun _ address ↦
  element codebook address.toNat

/-- The codebook entry times the scale of the group. `codebook_gather_scaled_f32`,
`quant/cpu/kernels/codebook` 44–62. -/
def scaled (codebook scales : Array Single) : Lookup Single := fun group address ↦ do
  let value ← element codebook address.toNat
  let scale ← element scales group
  return value.mul scale

/-- The codebook entry rounded to bfloat16. `codebook_gather_bf16`, `quant/cpu/kernels/codebook`
65–81. -/
def bfloat (codebook : Array Single) : Lookup BFloat := fun _ address ↦ do
  let value ← element codebook address.toNat
  return value.convert bfloat16

end Lookup

namespace Indices

/-- The positions of a group among `columns` columns. -/
def groupPositions (groupSize columns group : Nat) : List Nat :=
  (List.range (min groupSize (columns - group * groupSize))).map (group * groupSize + ·)

/-- Write one position of a group whose row starts at `base`. -/
def fillPosition {α : Type} (indices : Indices) (lookup : Lookup α) (group : Nat) (base : UInt64)
    (output : Array α) (position : Nat) : Except Fault (Array α) := do
  let col ← Lookup.element indices.cols position
  let value ← lookup group (base + col)
  return output.setIfInBounds position value

/-- The task of one group: write its positions. `quant/cpu/kernels/codebook` 105–110. -/
def fillGroup {α : Type} (indices : Indices) (lookup : Lookup α) (groupSize : Nat)
    (stride : UInt64) (output : Array α) (group : Nat) : Except Fault (Array α) := do
  let row ← Lookup.element indices.rows group
  (groupPositions groupSize indices.cols.size group).foldlM
    (indices.fillPosition lookup group (row * stride)) output

/-- Run the tasks of some groups in the given order. -/
def gatherInOrder {α : Type} (indices : Indices) (lookup : Lookup α) (groupSize : Nat)
    (stride : UInt64) (order : List Nat) (output : Array α) : Except Fault (Array α) :=
  order.foldlM (indices.fillGroup lookup groupSize stride) output

/-- Run the task of every group on an output that holds `blank` everywhere. Nothing can be split
into groups of size zero. `gather_groups`, `quant/cpu/kernels/codebook` 83–111. -/
def gather {α : Type} (indices : Indices) (lookup : Lookup α) (groupSize : Nat) (stride : UInt64)
    (blank : α) : Except Fault (Array α) :=
  if groupSize = 0 then .error .stray
  else
    indices.gatherInOrder lookup groupSize stride (List.range indices.rows.size)
      (Array.replicate indices.cols.size blank)

end Indices

end IndexedCodebook
