import IndexedCodebook.Proofs.Tensor.View

/-!
# Contents of views

The contents of a view are a contiguous tensor of its shape, with its elements in row-major order
(`Tensor.Contents`); every view has them (`WellPlaced.exists_contents`). Values other than single
precision are read in logical order, so a view of them is read as its contents. Indices and single
precision are read as they lie: a view of them that does not lie in order from the first stored
element on is not read at all (`Contents.values_eq` and `Contents.indices_eq`).
-/

namespace IndexedCodebook

open Outcome

namespace Elements

/-- Two arrays have the same elements at the places `p` and `q` of all multi-indices of a shape. -/
def AgreeOn {α : Type} (p q : List Nat → Nat) (shape : List Nat) (xs ys : Array α) : Prop :=
  ∀ index, Tensor.InShape index shape → xs[p index]? = ys[q index]?

private theorem agreeOn_iff {α : Type} {p q : List Nat → Nat} {shape : List Nat} {xs ys : Array α} :
    AgreeOn p q shape xs ys ↔ ∀ index ∈ Tensor.multiIndices shape, xs[p index]? = ys[q index]? := by
  simp only [AgreeOn, Tensor.mem_multiIndices_iff]

instance {α : Type} [DecidableEq α] (p q : List Nat → Nat) (shape : List Nat) (xs ys : Array α) :
    Decidable (AgreeOn p q shape xs ys) :=
  decidable_of_iff _ agreeOn_iff.symm

/-- Stored elements of one type, the same at the places `p` and `q` of all multi-indices of a shape.
-/
inductive Alike (p q : List Nat → Nat) (shape : List Nat) : Elements → Elements → Prop
  | f64 {xs ys : Array Double} (h : AgreeOn p q shape xs ys) : Alike p q shape (f64 xs) (f64 ys)
  | f32 {xs ys : Array Single} (h : AgreeOn p q shape xs ys) : Alike p q shape (f32 xs) (f32 ys)
  | f16 {xs ys : Array Half} (h : AgreeOn p q shape xs ys) : Alike p q shape (f16 xs) (f16 ys)
  | bf16 {xs ys : Array BFloat} (h : AgreeOn p q shape xs ys) :
      Alike p q shape (bf16 xs) (bf16 ys)
  | u32 {xs ys : Array UInt32} (h : AgreeOn p q shape xs ys) : Alike p q shape (u32 xs) (u32 ys)
  | u8 {xs ys : Array UInt8} (h : AgreeOn p q shape xs ys) : Alike p q shape (u8 xs) (u8 ys)
  | i32 {xs ys : Array Int32} (h : AgreeOn p q shape xs ys) : Alike p q shape (i32 xs) (i32 ys)
  | other (type : ElementType) : Alike p q shape (other type) (other type)

/-- The elements at some places. -/
def pick (places : List Nat) : Elements → Elements
  | f64 xs => f64 (places.map (xs.getD · (Word.zero false))).toArray
  | f32 xs => f32 (places.map (xs.getD · (Word.zero false))).toArray
  | f16 xs => f16 (places.map (xs.getD · (Word.zero false))).toArray
  | bf16 xs => bf16 (places.map (xs.getD · (Word.zero false))).toArray
  | u32 xs => u32 (places.map (xs.getD · 0)).toArray
  | u8 xs => u8 (places.map (xs.getD · 0)).toArray
  | i32 xs => i32 (places.map (xs.getD · 0)).toArray
  | other type => other type

private theorem hold_pick {elements : Elements} (h : elements.Hold 0) (places : List Nat) :
    (elements.pick places).Hold places.length := by
  cases elements with
  | other type => exact h
  | _ => simp [pick, Hold]

end Elements

namespace Tensor

variable {α : Type} {t u : Tensor}

/-- A contiguous tensor of the shape of a view, with the elements of the view in row-major order.
-/
structure Contents (t u : Tensor) : Prop where
  contiguous : u.Contiguous
  shape_eq : u.shape = t.shape
  alike : Elements.Alike t.place u.place t.shape t.elements u.elements

/-- A contiguous tensor has itself as contents. -/
theorem contents_self (h : t.Contiguous) : t.Contents t := by
  refine ⟨h, rfl, ?_⟩
  cases t.elements with
  | other type => exact .other type
  | _ => constructor; exact fun _ _ ↦ rfl

private theorem agreeOn_pick {xs : Array α} {blank : α} (h : ∀ index, InShape index t.shape →
    t.place index < xs.size) :
    Elements.AgreeOn t.place (distance · (rowMajor t.shape)) t.shape xs
      (((multiIndices t.shape).map t.place).map (xs.getD · blank)).toArray := by
  intro index hindex
  simp [getElem?_multiIndices hindex, h index hindex]

/-- A well-placed tensor has contents. -/
theorem WellPlaced.exists_contents (h : t.WellPlaced) : ∃ u, t.Contents u := by
  have hlength : ((multiIndices t.shape).map t.place).length = count t.shape := by
    rw [List.length_map, length_multiIndices]
  have hstored := h.stored
  refine ⟨Tensor.ofElements (t.elements.pick ((multiIndices t.shape).map t.place)) t.shape,
    contiguous_ofElements (hlength ▸ Elements.hold_pick h.hold _), rfl, ?_⟩
  have hplace : ∀ elements : Elements,
      (ofElements elements t.shape).place = (distance · (rowMajor t.shape)) :=
    fun _ ↦ funext fun _ ↦ Nat.zero_add _
  rw [hplace]
  cases he : t.elements with
  | f64 xs | f32 xs | f16 xs | bf16 xs | u32 xs | u8 xs | i32 xs =>
    rw [he] at hstored
    constructor
    exact agreeOn_pick hstored
  | other type => exact .other type

private theorem logical_eq_of_agreeOn {xs ys : Array α} (hshape : u.shape = t.shape)
    (h : Elements.AgreeOn t.place u.place t.shape xs ys) : t.logical xs = u.logical ys := by
  rw [logical_eq_mapM, logical_eq_mapM, hshape]
  congr 1
  apply mapM_congr
  intro index hindex
  rw [stored, stored, Elements.agreeOn_iff.mp h index hindex]

/-- The elements are single-precision values that do not lie in row-major order from the first
stored one on. -/
def MisplacedValues (t : Tensor) : Prop := t.elements.type = .f32 ∧ t.isContiguous = false

/-- The elements are integers that do not lie in row-major order from the first stored one on. -/
def MisplacedIndices (t : Tensor) : Prop := t.elements.type.isIndex ∧ t.isContiguous = false

instance (t : Tensor) : Decidable t.MisplacedValues := inferInstanceAs (Decidable (_ ∧ _))

instance (t : Tensor) : Decidable t.MisplacedIndices := inferInstanceAs (Decidable (_ ∧ _))

private theorem inPlace_of_agreeOn {xs ys : Array α} (hu : u.isContiguous)
    (hshape : u.shape = t.shape) (h : Elements.AgreeOn t.place u.place t.shape xs ys) :
    t.inPlace xs = if t.isContiguous then u.inPlace ys else .error .stray := by
  rw [inPlace, inPlace, if_pos hu, logical_eq_of_agreeOn hshape h]

/-- Misplaced values are not read, and other views are read as their contents. -/
theorem Contents.values_eq (h : t.Contents u) (name : Argument) :
    t.values name = if t.MisplacedValues then .error .stray else u.values name := by
  obtain ⟨elements, shape, strides, offset⟩ := t
  obtain ⟨elements', shape', strides', offset'⟩ := u
  obtain ⟨⟨horder, hstored⟩, hshape, halike⟩ := h
  cases halike with
  | f64 h | f16 h | bf16 h =>
    refine Eq.trans ?_ (if_neg fun hmisplaced ↦ ?_).symm
    · exact congrArg (_ <$> ·) (logical_eq_of_agreeOn hshape h)
    · cases hmisplaced.1
  | f32 h =>
    have hread := inPlace_of_agreeOn horder hshape h
    simp only [values, hread, MisplacedValues, Elements.type, true_and]
    split
    · next hc => simp [hc]
    · next hc => simp [hc]
  | u32 h | u8 h | i32 h =>
    refine Eq.trans rfl (if_neg fun hmisplaced ↦ ?_).symm
    cases hmisplaced.1
  | other type =>
    refine Eq.trans rfl (if_neg fun hmisplaced ↦ ?_).symm
    have htype : type = .f32 := hmisplaced.1
    have hvalue : type.isValue = false := hstored.2
    rw [htype] at hvalue
    cases hvalue

/-- Misplaced indices are not read, and other views are read as their contents. -/
theorem Contents.indices_eq (h : t.Contents u) (name : Argument) :
    t.indices name = if t.MisplacedIndices then .error .stray else u.indices name := by
  obtain ⟨elements, shape, strides, offset⟩ := t
  obtain ⟨elements', shape', strides', offset'⟩ := u
  obtain ⟨⟨horder, hstored⟩, hshape, halike⟩ := h
  cases halike with
  | f64 h | f32 h | f16 h | bf16 h =>
    refine Eq.trans rfl (if_neg fun hmisplaced ↦ ?_).symm
    cases hmisplaced.1
  | u32 h | u8 h | i32 h =>
    have hread := inPlace_of_agreeOn horder hshape h
    simp only [indices, hread, MisplacedIndices, Elements.type, ElementType.isIndex, true_and]
    split
    · next hc => simp [hc]
    · next hc => simp [hc]
  | other type =>
    refine Eq.trans rfl (if_neg fun hmisplaced ↦ ?_).symm
    have htype : type.isIndex = true := hmisplaced.1
    have hindex : type.isIndex = false := hstored.1
    rw [htype] at hindex
    cases hindex

end Tensor

end IndexedCodebook
