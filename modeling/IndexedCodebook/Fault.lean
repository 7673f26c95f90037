import IndexedCodebook.Decimal.Shortest
import IndexedCodebook.Tensor.ElementType

/-!
# Faults

Every refusal is a `Fault` that holds its cause; `Fault.message` is its only wording. A
`Fault.stray` is no refusal and has no wording: it is a read outside a sequence, a division into
groups of size zero, a tensor view that cannot be read as it lies, or a reservation of more room
than a sequence can have. The operations that check their inputs never do the first two.

Source: `error` 8–69, and the reasons where the components make them; `SPEC_FULL` §7.
-/

namespace IndexedCodebook

/-- Lengths that do not fit together. -/
inductive ShapeFault where
  /-- The column count is not a positive multiple of the group size. -/
  | brokenGroup (columns groupSize : Nat)
  /-- There is not exactly one row per group. -/
  | rowCount (rows groups groupSize columns : Nat)
  | emptyCodebook
  /-- There is not exactly one scale per group. -/
  | scaleCount (scales groups : Nat)
  /-- The output to be validated is not as long as the columns. -/
  | outputLength (output columns : Nat)
  deriving DecidableEq, Repr

/-- A position whose indices reach no codebook entry. `IndexOutOfRange`, `error` 21–36. -/
structure AddressFault where
  position : Nat
  row : UInt64
  col : UInt64
  /-- The combined address, saturated at the largest 64-bit number. -/
  address : UInt64
  entries : Nat
  deriving DecidableEq, Repr

/-- The named arguments that can be refused. -/
inductive Argument where
  | groupSize | colCardinality | rowCardinality | numGroups | codebookLength
  | targetType | rows | cols | codebook | scales
  deriving DecidableEq, Repr

/-- Why an argument is refused. -/
inductive ArgumentFault where
  | zero
  /-- The product of the cardinalities exceeds 64 bits. -/
  | addressSpace (rows cols : UInt64)
  /-- The codebook is shorter than one row. -/
  | noRow (entries : Nat) (cols : UInt64)
  /-- The indices below a cardinality do not fit in a byte. -/
  | byteIndices (cardinality : Nat)
  | targetNotFloat (found : ElementType)
  | valuesNotFloat (found : ElementType)
  | notIndices (found : ElementType)
  | negativeIndex (value : Int) (position : Nat)
  deriving DecidableEq, Repr

/-- Why settings cannot be loaded. -/
inductive DocumentFault where
  | unreadable
  | malformedJson
  | malformedYaml
  deriving DecidableEq, Repr

/-- The outcome of a failed comparison as a refusal. `ToleranceExceeded`, `error` 39–52. -/
structure ToleranceFault where
  mismatches : Nat
  outOfRange : Nat
  checked : Nat
  tolerance : Single
  deriving DecidableEq, Repr

/-- Why an operation gives no answer. `Error`, `error` 8–69; `stray` is an abort. -/
inductive Fault where
  | shape (cause : ShapeFault)
  | address (cause : AddressFault)
  | tolerance (cause : ToleranceFault)
  | argument (name : Argument) (cause : ArgumentFault)
  | document (cause : DocumentFault)
  | stray
  deriving DecidableEq, Repr

namespace ShapeFault

/-- The reason in words. -/
def reason : ShapeFault → String
  | brokenGroup columns groupSize =>
      s!"col_idx length {columns} is not a positive multiple of group_size {groupSize}"
  | rowCount rows groups groupSize columns =>
      s!"row_idx length {rows} does not match {groups} groups of {groupSize} "
        ++ s!"(col_idx length {columns})"
  | emptyCodebook => "codebook is empty"
  | scaleCount scales groups => s!"scales length {scales} does not match {groups} groups"
  | outputLength output columns =>
      s!"output length {output} does not match col_idx length {columns}"

end ShapeFault

namespace Argument

/-- The name of an argument. -/
def name : Argument → String
  | groupSize => "group_size"
  | colCardinality => "col_cardinality"
  | rowCardinality => "row_cardinality"
  | numGroups => "num_groups"
  | codebookLength => "codebook_len"
  | targetType => "target_dtype"
  | rows => "row_idx"
  | cols => "col_idx"
  | codebook => "codebook"
  | scales => "scales"

end Argument

namespace ArgumentFault

/-- The reason in words. -/
def reason : ArgumentFault → String
  | zero => "must be > 0"
  | addressSpace rows cols => s!"{rows} rows x {cols} cols overflows the address space"
  | noRow entries cols => s!"{entries} entries cannot hold a row of {cols}"
  | byteIndices cardinality => s!"{cardinality} does not fit in u8 indices"
  | targetNotFloat found => s!"codebook dequant target must be float, got {found.name}"
  | valuesNotFloat found => s!"expected a floating point tensor, got {found.name}"
  | notIndices found => s!"expected U8, U32 or I32 indices, got {found.name}"
  | negativeIndex value position => s!"negative index {value} at position {position}"

end ArgumentFault

namespace DocumentFault

/-- The reason in words, up to its colon. What follows there is the reader's own account of the
error; it is not modelled. `quant/config` 186, 189 and 201. -/
def reason : DocumentFault → String
  | unreadable => "IO error"
  | malformedJson => "JSON parse error"
  | malformedYaml => "YAML parse error"

end DocumentFault

namespace Fault

/-- The message of a fault. -/
def message : Fault → String
  | shape cause => s!"shape mismatch: {cause.reason}"
  | address cause =>
      s!"codebook index out of range at position {cause.position}: "
        ++ s!"row {cause.row}, col {cause.col} -> address {cause.address} "
        ++ s!"(codebook has {cause.entries} entries)"
  | tolerance cause =>
      s!"validation failed: {cause.mismatches} of {cause.checked} elements exceed tolerance "
        ++ s!"{RealStyle.message.text cause.tolerance}, {cause.outOfRange} out of range"
  | argument name cause => s!"invalid argument '{name.name}': {cause.reason}"
  | document cause => s!"config error: {cause.reason}"
  | stray => ""

end Fault

end IndexedCodebook
