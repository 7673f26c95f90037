import IndexedCodebook.Addressing.Basic

/-!
# Positions

`Addressing.resolve?` says which entry an index pair reaches, if any. A dequantization is accepted
only if the pair of every position reaches one; the lowest position that does not decides the fault.

Source: `quant/codebook` 48–112; `SPEC_FULL` §4.2.
-/

namespace IndexedCodebook

-- A power with a natural exponent is the core library's, also in scope of `Monoid`.
attribute [local instance (20000)] instPowNat

/-- The indices of one dequantization. -/
structure Indices where
  /-- One row index per group. -/
  rows : Array UInt64
  /-- One column index per position. -/
  cols : Array UInt64
  deriving DecidableEq, Repr

namespace Addressing

/-- The entry that an index pair reaches: both indices are below their cardinalities and the address
is below the length of the codebook. `resolve_address`, `quant/codebook` 51–64. -/
def resolve? (a : Addressing) (entries : Nat) (row col : UInt64) : Option UInt64 :=
  if a.colCardinality ≤ col then none
  else if a.rowCardinality.any (· ≤ row) then none
  else (address? row col a.colCardinality).filter (·.toNat < entries)

/-- The index pair of a position: the row of its group and a column of its own. Reading a position
beyond the rows or columns, or with group size zero, is a stray read. -/
def pairAt (a : Addressing) (indices : Indices) (position : Nat) :
    Except Fault (UInt64 × UInt64) :=
  if a.groupSize = 0 then .error .stray
  else
    match indices.rows[position / a.groupSize.toNat]?, indices.cols[position]? with
    | some row, some col => .ok (row, col)
    | _, _ => .error .stray

/-- The fault of a position, if its index pair reaches no entry. -/
def faultAt (a : Addressing) (indices : Indices) (entries position : Nat) : Option Fault :=
  match a.pairAt indices position with
  | .error fault => some fault
  | .ok (row, col) =>
      if (a.resolve? entries row col).isSome then none
      else
        let address := (address? row col a.colCardinality).getD (.ofNat (2 ^ (64 : Nat) - 1))
        some (.address ⟨position, row, col, address, entries⟩)

/-- Every position reaches an entry; otherwise the fault is that of the lowest one that does not.
`scan_addresses`, `quant/codebook` 82–112. -/
def checkPositions (a : Addressing) (indices : Indices) (entries : Nat) : Except Fault Unit :=
  match (List.range indices.cols.size).findSome? (a.faultAt indices entries) with
  | none => .ok ()
  | some fault => .error fault

/-- The lengths fit together and every position reaches an entry. `check_addresses`,
`quant/codebook` 70–79. -/
def accept (a : Addressing) (indices : Indices) (entries : Nat) : Traced Shape := do
  let shape ← a.shapeOf indices.rows.size indices.cols.size entries
  .ofResult (a.checkPositions indices entries)
  return shape

end Addressing

end IndexedCodebook
