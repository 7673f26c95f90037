import IndexedCodebook.Fault

/-!
# Events

Operations report what they notice as events, in order. An event has a level, a wording and named
fields.

Source: the log calls of `quant/config` 160–174, `quant/codebook` 121–128 and `quant/validate`
258–304; `SPEC_FULL` §8.
-/

namespace IndexedCodebook

/-- A position whose value is outside the tolerance. -/
structure Mismatch where
  position : Nat
  /-- The reference value. -/
  expected : Double
  /-- The value under test. -/
  actual : Double
  row : UInt64
  col : UInt64
  address : UInt64
  deriving DecidableEq, Repr

/-- A position that a validation skips, because its indices reach no entry. -/
structure Skipped where
  position : Nat
  row : UInt64
  col : UInt64
  /-- The combined address, if it fits in 64 bits. -/
  address : Option UInt64
  entries : Nat
  deriving DecidableEq, Repr

/-- Something worth noting during an operation. -/
inductive Event where
  | smallCodebook (entries addressSpace : Nat)
  | unreachableEntries (entries addressSpace : Nat)
  | dequantizing (elements groups entries groupSize colCardinality : Nat)
  | skipped (position : Skipped)
  | mismatch (position : Mismatch)
  | finished (checked mismatches outOfRange : Nat) (passed : Bool)
  deriving DecidableEq, Repr

/-- How urgent an event is. -/
inductive Level where
  | debug
  | info
  | warn
  deriving DecidableEq, Repr

/-- The value of an event's field. -/
inductive FieldValue where
  | integer (n : Nat)
  | real (x : Double)
  | flag (b : Bool)
  | text (s : String)
  deriving DecidableEq, Repr

namespace Level

/-- The name of a level. -/
def name : Level → String
  | debug => "DEBUG"
  | info => "INFO"
  | warn => "WARN"

end Level

namespace Skipped

/-- The combined address in words. -/
def addressText (s : Skipped) : String :=
  match s.address with
  | some address => s!"Some({address})"
  | none => "None"

end Skipped

namespace Event

/-- The level of an event. -/
def level : Event → Level
  | smallCodebook .. | skipped _ | mismatch _ => .warn
  | unreachableEntries .. | dequantizing .. => .debug
  | finished .. => .info

/-- The wording of an event. -/
def message : Event → String
  | smallCodebook .. => "codebook is smaller than the configured address space"
  | unreachableEntries .. => "codebook entries beyond the address space are unreachable"
  | dequantizing .. => "codebook dequant"
  | skipped _ => "codebook address out of range, skipping"
  | mismatch _ => "result mismatch"
  | finished .. => "codebook validation finished"

/-- The fields of an event, in order. -/
def fields : Event → List (String × FieldValue)
  | smallCodebook entries space | unreachableEntries entries space =>
      [("codebook_len", .integer entries), ("address_space", .integer space)]
  | dequantizing elements groups entries groupSize colCardinality =>
      [("num_elements", .integer elements), ("num_groups", .integer groups),
        ("codebook_len", .integer entries), ("group_size", .integer groupSize),
        ("col_cardinality", .integer colCardinality)]
  | skipped s =>
      [("position", .integer s.position), ("row_index", .integer s.row.toNat),
        ("col_index", .integer s.col.toNat), ("address", .text s.addressText),
        ("codebook_len", .integer s.entries)]
  | mismatch m =>
      [("position", .integer m.position), ("expected", .real m.expected),
        ("actual", .real m.actual), ("row_index", .integer m.row.toNat),
        ("col_index", .integer m.col.toNat), ("address", .integer m.address.toNat)]
  | finished checked mismatches outOfRange passed =>
      [("checked", .integer checked), ("mismatches", .integer mismatches),
        ("out_of_range", .integer outOfRange), ("passed", .flag passed)]

end Event

end IndexedCodebook
