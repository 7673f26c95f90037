import IndexedCodebook.Address
import IndexedCodebook.Traced

/-!
# Addressing

A codebook is a table of rows of `colCardinality` entries each. Every position of an output has a
column index of its own and shares a row index with the other positions of its group, and the
entry it reads is `row · colCardinality + col`. `Addressing` holds the group size and the
cardinalities, and `Addressing.checkLengths` decides which lengths fit together.

Source: `quant/config` 13–181; `SPEC_FULL` §4.1.
-/

namespace IndexedCodebook

/-- How indices address a codebook. `CodebookConfig`, `quant/config` 22–41. -/
structure Addressing where
  /-- Consecutive positions that share one row index. -/
  groupSize : UInt64 := 16
  /-- Distinct column indices, and the stride between rows. -/
  colCardinality : UInt64 := 16
  /-- Distinct row indices; without it rows are bounded by the codebook alone. -/
  rowCardinality : Option UInt64 := some 4
  deriving DecidableEq, Repr

/-- The lengths of one dequantization. `CodebookShape`, `quant/config` 45–52. -/
structure Shape where
  /-- Positions: the length of the columns and of the output. -/
  elements : Nat
  /-- The length of the rows. -/
  groups : Nat
  /-- The length of the codebook. -/
  entries : Nat
  deriving DecidableEq, Repr

namespace Addressing

/-- Addressing with rows bounded by the codebook alone. -/
def unbounded (groupSize colCardinality : UInt64) : Addressing :=
  ⟨groupSize, colCardinality, none⟩

/-- The number of entries that index pairs can address, if the row cardinality is set and the number
fits in 64 bits. `address_space`, `quant/config` 118–121. -/
def space? (a : Addressing) : Option UInt64 :=
  a.rowCardinality.bind (checkedMul · a.colCardinality)

/-- The row cardinality, if set, is positive and addresses at most a 64-bit space. -/
def checkRows (a : Addressing) : Except Fault Unit :=
  match a.rowCardinality with
  | none => .ok ()
  | some rows =>
      if rows = 0 then .error (.argument .rowCardinality .zero)
      else if (checkedMul rows a.colCardinality).isNone then
        .error (.argument .rowCardinality (.addressSpace rows a.colCardinality))
      else .ok ()

/-- Whether the addressing can be used at all. `validate`, `quant/config` 83–114. -/
def check (a : Addressing) : Except Fault Unit :=
  if a.groupSize = 0 then .error (.argument .groupSize .zero)
  else if a.colCardinality = 0 then .error (.argument .colCardinality .zero)
  else a.checkRows

/-- What is to be noted about the size of a codebook: with a set row cardinality it should be the
address space. `quant/config` 160–174. -/
def sizeEvents (a : Addressing) (entries : Nat) : List Event :=
  match a.space? with
  | none => []
  | some space =>
      if entries < space.toNat then [.smallCodebook entries space.toNat]
      else if space.toNat < entries then [.unreachableEntries entries space.toNat]
      else []

/-- The number of whole groups among some columns, and the number of columns that are left over.
There is no division into groups of size zero. -/
def divide (columns groupSize : Nat) : Except Fault (Nat × Nat) :=
  if groupSize = 0 then .error .stray else .ok (columns / groupSize, columns % groupSize)

/-- The lengths fit together if the columns are a positive number of whole groups, there is one row
per group, and the codebook is not empty. A codebook smaller than the address space is noted and
accepted: whether a pair reaches an entry is decided per position. -/
def checkLengths (a : Addressing) (rows columns entries : Nat) : Except Fault Shape := do
  a.check
  let groupSize := a.groupSize.toNat
  let (groups, rest) ← divide columns groupSize
  if columns = 0 ∨ rest ≠ 0 then
    .error (.shape (.brokenGroup columns groupSize))
  else if rows ≠ groups then
    .error (.shape (.rowCount rows groups groupSize columns))
  else if entries = 0 then .error (.shape .emptyCodebook)
  else .ok ⟨columns, groups, entries⟩

/-- The lengths of one dequantization, with a note on the size of the codebook. `check_shapes`,
`quant/config` 129–181. -/
def shapeOf (a : Addressing) (rows columns entries : Nat) : Traced Shape := do
  let shape ← .ofResult (a.checkLengths rows columns entries)
  .emitAll (a.sizeEvents entries)
  return shape

end Addressing

end IndexedCodebook
