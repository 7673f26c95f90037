import IndexedCodebook.Fault

/-!
# Tensors and views

A tensor is a sequence of stored elements with a shape, a stride for each dimension and an offset.
Swapping or narrowing dimensions gives another view of the same elements. `Tensor.logical` reads
the elements of a view in row-major order; `Tensor.inPlace` reads a view only if its elements lie in
that order from the first stored element on, and refuses it otherwise.

Source: the tensors of `numr` 0.4, as `quant/cpu/codebook` 50–118 reads and makes them.
-/

namespace IndexedCodebook

/-- Stored elements. Tensors of the other element types are refused by their type alone, so nothing
is stored for them. -/
inductive Elements where
  | f64 (xs : Array Double)
  | f32 (xs : Array Single)
  | f16 (xs : Array Half)
  | bf16 (xs : Array BFloat)
  | u32 (xs : Array UInt32)
  | u8 (xs : Array UInt8)
  | i32 (xs : Array Int32)
  | other (type : ElementType)
  deriving DecidableEq, Repr

namespace Elements

/-- The type of the elements. -/
def type : Elements → ElementType
  | f64 _ => .f64
  | f32 _ => .f32
  | f16 _ => .f16
  | bf16 _ => .bf16
  | u32 _ => .u32
  | u8 _ => .u8
  | i32 _ => .i32
  | other type => type

end Elements

/-- A view of stored elements. -/
structure Tensor where
  elements : Elements
  shape : List Nat
  /-- The distance in the storage of neighbours along each dimension. -/
  strides : List Nat
  /-- The place in the storage of the first element. -/
  offset : Nat
  deriving DecidableEq, Repr

namespace Tensor

/-- The number of elements of a shape. -/
def count (shape : List Nat) : Nat := shape.foldr (· * ·) 1

/-- The strides of a shape whose elements lie in row-major order. -/
def rowMajor : List Nat → List Nat
  | [] => []
  | _ :: shape => count shape :: rowMajor shape

/-- The elements in row-major order as a tensor of a shape. -/
def ofElements (elements : Elements) (shape : List Nat) : Tensor :=
  ⟨elements, shape, rowMajor shape, 0⟩

/-- Two entries of a list, swapped. -/
def swapAt (xs : List Nat) (i j : Nat) : List Nat :=
  (xs.set i (xs.getD j 0)).set j (xs.getD i 0)

/-- The view with two dimensions swapped. -/
def transpose (t : Tensor) (i j : Nat) : Tensor :=
  { t with shape := swapAt t.shape i j, strides := swapAt t.strides i j }

/-- The view of `length` indices of a dimension from `start` on. -/
def narrow (t : Tensor) (dimension start length : Nat) : Tensor :=
  { t with
    shape := t.shape.set dimension length
    offset := t.offset + start * t.strides.getD dimension 0 }

/-- The distances from the first element to all elements, in row-major order. -/
def distances : List Nat → List Nat → List Nat
  | [], _ => [0]
  | n :: shape, strides =>
      (List.range n).flatMap fun i ↦
        (distances shape strides.tail).map (i * strides.headD 0 + ·)

/-- Whether the elements lie in row-major order from the first stored element on. -/
def isContiguous (t : Tensor) : Bool := t.offset == 0 && t.strides == rowMajor t.shape

variable {α : Type}

/-- The element at a place of the storage. -/
def stored (xs : Array α) (place : Nat) : Except Fault α :=
  match xs[place]? with
  | some x => .ok x
  | none => .error .stray

/-- The elements of a view in row-major order, taken from its storage. -/
def logical (t : Tensor) (xs : Array α) : Except Fault (Array α) := do
  let values ← (distances t.shape t.strides).mapM fun d ↦ stored xs (t.offset + d)
  return values.toArray

/-- The elements of a view that lie in row-major order; another view is refused. -/
def inPlace (t : Tensor) (xs : Array α) : Except Fault (Array α) :=
  if t.isContiguous then t.logical xs else .error .stray

end Tensor

end IndexedCodebook
