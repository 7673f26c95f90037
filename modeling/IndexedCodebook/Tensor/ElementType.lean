/-!
# Element types of tensors

Indices are read from three integer types and values from four float types; the other types occur
only to be refused by name.

Source: the element types of `numr` 0.4, as `quant/cpu/codebook` 84–118 names them.
-/

namespace IndexedCodebook

/-- The type of a tensor's elements. -/
inductive ElementType where
  | f64 | f32 | f16 | bf16 | fp8e4m3 | fp8e5m2
  | i64 | i32 | i16 | i8
  | u64 | u32 | u16 | u8
  | bool | complex64 | complex128
  deriving DecidableEq, Repr

namespace ElementType

/-- The name of an element type. -/
def name : ElementType → String
  | f64 => "F64"
  | f32 => "F32"
  | f16 => "F16"
  | bf16 => "BF16"
  | fp8e4m3 => "FP8E4M3"
  | fp8e5m2 => "FP8E5M2"
  | i64 => "I64"
  | i32 => "I32"
  | i16 => "I16"
  | i8 => "I8"
  | u64 => "U64"
  | u32 => "U32"
  | u16 => "U16"
  | u8 => "U8"
  | bool => "Bool"
  | complex64 => "Complex64"
  | complex128 => "Complex128"

/-- All element types. -/
def all : List ElementType :=
  [f64, f32, f16, bf16, fp8e4m3, fp8e5m2, i64, i32, i16, i8, u64, u32, u16, u8, bool, complex64,
    complex128]

/-- The element type of a name. -/
def ofName? (name : String) : Option ElementType := all.find? (·.name == name)

end ElementType

end IndexedCodebook
