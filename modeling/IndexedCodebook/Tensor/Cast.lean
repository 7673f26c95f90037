import IndexedCodebook.Binary.Arithmetic
import IndexedCodebook.Tensor.Basic

/-!
# Reading and casting tensor elements

Values are brought to single precision before a dequantization and cast to the target type after
it. Every cast rounds to nearest, ties to even, with one exception: single precision goes to
bfloat16 by way of a double-precision word without its low 32 bits.

Source: `quant/cpu/codebook` 50–118 and the casts of `numr` 0.4; `SPEC_FULL` §4.4.
-/

namespace IndexedCodebook

-- A power with a natural exponent is the core library's, also in scope of `Monoid`.
attribute [local instance (20000)] instPowNat

namespace Word

/-- A double-precision word with its low 32 bits cleared. -/
def clearLow (w : Double) : Double :=
  ⟨w.negative, w.magnitude / 2 ^ (32 : Nat) * 2 ^ (32 : Nat),
    Nat.lt_of_le_of_lt (Nat.div_mul_le_self ..) w.magnitude_lt⟩

/-- The bfloat16 word that a tensor cast makes of a single-precision word. The word is widened, and
what its double-precision form has in the low 32 bits does not take part in the rounding. -/
def castBFloat (w : Single) : BFloat :=
  if w.isNaN then Word.nan else w.toDouble.clearLow.convert bfloat16

end Word

namespace Tensor

/-- The single-precision values of a float tensor. Other formats are cast, in logical order; single
precision is read as it lies. `host_values`, `quant/cpu/codebook` 51–67. -/
def values (t : Tensor) (name : Argument) : Except Fault (Array Single) :=
  match t.elements with
  | .f32 xs => t.inPlace xs
  | .f64 xs => (·.map (·.convert binary32)) <$> t.logical xs
  | .f16 xs => (·.map (·.convert binary32)) <$> t.logical xs
  | .bf16 xs => (·.map (·.convert binary32)) <$> t.logical xs
  | other => .error (.argument name (.valuesNotFloat other.type))

/-- The fault of the first negative integer. -/
def firstNegative? (name : Argument) (xs : Array Int32) : Option Fault :=
  (List.range xs.size).findSome? fun i ↦
    let x := (xs.getD i 0).toInt
    if x < 0 then some (.argument name (.negativeIndex x i)) else none

/-- The indices of an integer tensor, read as it lies. `host_indices`, `quant/cpu/codebook` 98–118.
-/
def indices (t : Tensor) (name : Argument) : Except Fault (Array UInt64) :=
  match t.elements with
  | .u8 xs => (·.map (·.toUInt64)) <$> t.inPlace xs
  | .u32 xs => (·.map (·.toUInt64)) <$> t.inPlace xs
  | .i32 xs => do
      let xs ← t.inPlace xs
      match firstNegative? name xs with
      | some fault => .error fault
      | none => return xs.map fun x ↦ .ofNat x.toInt.toNat
  | other => .error (.argument name (.notIndices other.type))

end Tensor

/-- The float types that a dequantization can be cast to. -/
inductive Target where
  | f64
  | f32
  | f16
  | bf16
  deriving DecidableEq, Repr

namespace Target

/-- The target of an element type; other than float types are refused. `check_target_dtype`,
`quant/cpu/codebook` 84–95. -/
def ofType : ElementType → Except Fault Target
  | .f64 => .ok f64
  | .f32 => .ok f32
  | .f16 => .ok f16
  | .bf16 => .ok bf16
  | other => .error (.argument .targetType (.targetNotFloat other))

/-- Single-precision values cast to a target. `finish`, `quant/cpu/codebook` 70–82. -/
def cast (target : Target) (xs : Array Single) : Elements :=
  match target with
  | f64 => .f64 (xs.map (·.convert binary64))
  | f32 => .f32 xs
  | f16 => .f16 (xs.map (·.convert binary16))
  | bf16 => .bf16 (xs.map (·.castBFloat))

end Target

end IndexedCodebook
