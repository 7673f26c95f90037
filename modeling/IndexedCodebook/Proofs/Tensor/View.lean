import Mathlib.Algebra.BigOperators.Group.Finset.Basic
import IndexedCodebook.Proofs.Tensor.Contiguous

/-!
# Places of views

The element of a multi-index lies at the offset of a view plus the sum of indices times strides
(`Tensor.place`), and a view is read over the multi-indices of its shape in row-major order
(`logical_eq_mapM`). Swapping and narrowing dimensions move no element: a view has at a multi-index
the element of the viewed tensor at the swapped or shifted one (`place_transpose` and
`place_narrow`). So no chain of views reaches beyond the storage (`IsView.wellPlaced`).
-/

namespace IndexedCodebook

private theorem Elements.Hold.mono {elements : Elements} {m n : Nat} (h : elements.Hold n)
    (hle : m ≤ n) :
    elements.Hold m := by
  cases elements with
  | other type => exact h
  | _ => exact Nat.le_trans hle h

namespace Tensor

/-- The distance from the first element to the one of a multi-index. -/
def distance : List Nat → List Nat → Nat
  | [], _ => 0
  | i :: index, strides => i * strides.headD 0 + distance index strides.tail

/-- The place in the storage of the element of a multi-index. -/
def place (t : Tensor) (index : List Nat) : Nat := t.offset + distance index t.strides

/-- The multi-indices of a shape in row-major order. -/
def multiIndices : List Nat → List (List Nat)
  | [] => [[]]
  | n :: shape => (List.range n).flatMap fun i ↦ (multiIndices shape).map (i :: ·)

/-- One index below the length of each dimension. -/
structure InShape (index shape : List Nat) : Prop where
  length_eq : index.length = shape.length
  lt : ∀ k < shape.length, index.getD k 0 < shape.getD k 0

variable {index shape strides : List Nat} {t : Tensor}

/-- The multi-indices of a shape are those that lie in it. -/
theorem mem_multiIndices_iff : index ∈ multiIndices shape ↔ InShape index shape := by
  induction shape generalizing index with
  | nil =>
    rw [multiIndices, List.mem_singleton]
    constructor
    · rintro rfl
      exact ⟨rfl, fun k hk ↦ absurd hk (Nat.not_lt_zero k)⟩
    · intro h
      exact List.eq_nil_of_length_eq_zero h.length_eq
  | cons n shape ih =>
    simp only [multiIndices, List.mem_flatMap, List.mem_range, List.mem_map, ih]
    constructor
    · rintro ⟨i, hi, rest, hrest, rfl⟩
      refine ⟨congrArg (· + 1) hrest.length_eq, fun k hk ↦ ?_⟩
      cases k with
      | zero => exact hi
      | succ k => exact hrest.lt k (Nat.lt_of_succ_lt_succ hk)
    · intro h
      cases index with
      | nil => cases h.length_eq
      | cons i rest =>
        refine ⟨i, h.lt 0 (Nat.succ_pos _), rest, ⟨Nat.succ.inj h.length_eq, ?_⟩, rfl⟩
        exact fun k hk ↦ h.lt (k + 1) (Nat.succ_lt_succ hk)

private theorem distances_eq_map (shape strides : List Nat) :
    distances shape strides = (multiIndices shape).map (distance · strides) := by
  induction shape generalizing strides with
  | nil => rfl
  | cons n shape ih =>
    rw [distances, multiIndices, List.map_flatMap]
    simp only [ih, List.map_map]
    rfl

variable {α : Type}

/-- A view is read over its multi-indices. -/
theorem logical_eq_mapM (t : Tensor) (xs : Array α) :
    t.logical xs =
      List.toArray <$> (multiIndices t.shape).mapM fun index ↦ stored xs (t.place index) := by
  rw [logical, distances_eq_map, List.mapM_map]
  rfl

/-- In row-major order a multi-index lies at the place that it has among the multi-indices. -/
theorem getElem?_multiIndices (h : InShape index shape) :
    (multiIndices shape)[distance index (rowMajor shape)]? = some index := by
  have hmap : (multiIndices shape).map (distance · (rowMajor shape)) =
      List.range (count shape) := by
    rw [← distances_eq_map, distances_rowMajor]
  obtain ⟨k, hk⟩ := List.getElem?_of_mem (mem_multiIndices_iff.mpr h)
  have hplace : (List.range (count shape))[k]? = some (distance index (rowMajor shape)) := by
    rw [← hmap, List.getElem?_map, hk, Option.map_some]
  obtain ⟨hlt, heq⟩ := List.getElem?_eq_some_iff.mp hplace
  rw [← heq, List.getElem_range, hk]

/-- A shape has as many multi-indices as elements. -/
theorem length_multiIndices (shape : List Nat) : (multiIndices shape).length = count shape := by
  have hmap := distances_rowMajor shape
  rw [distances_eq_map] at hmap
  have hlength := congrArg List.length hmap
  rwa [List.length_map, List.length_range] at hlength

section Swapping

variable {xs : List Nat} {i j : Nat}

/-- A swap keeps the number of dimensions. -/
@[simp] theorem length_swapAt (xs : List Nat) (i j : Nat) : (swapAt xs i j).length = xs.length := by
  simp [swapAt]

private theorem getD_swapAt (hi : i < xs.length) (hj : j < xs.length) (k : Nat) :
    (swapAt xs i j).getD k 0 = xs.getD (Equiv.swap i j k) 0 := by
  rw [swapAt, List.getD_eq_getElem?_getD, List.getElem?_set, List.getElem?_set, List.length_set,
    Equiv.swap_apply_def]
  by_cases hkj : j = k
  · subst hkj
    by_cases hij : j = i
    · simp [hij, hi]
    · simp [hj, hij]
  · by_cases hki : i = k
    · subst hki
      simp [hkj, hi]
    · simp [hkj, hki, Ne.symm hkj, Ne.symm hki]

private theorem distance_eq_sum (index strides : List Nat) :
    distance index strides =
      ∑ k ∈ Finset.range index.length, index.getD k 0 * strides.getD k 0 := by
  induction index generalizing strides with
  | nil => rfl
  | cons i index ih =>
    rw [distance, ih, List.length_cons, Finset.sum_range_succ', Nat.add_comm]
    cases strides with
    | nil => rfl
    | cons stride strides => rfl

private theorem distance_swapAt (hlength : strides.length = index.length) (hi : i < index.length)
    (hj : j < index.length) :
    distance index (swapAt strides i j) = distance (swapAt index i j) strides := by
  rw [distance_eq_sum, distance_eq_sum, length_swapAt]
  apply Finset.sum_equiv (Equiv.swap i j)
  · intro k
    rw [Finset.mem_range, Finset.mem_range, Equiv.swap_apply_def]
    split
    · omega
    · split
      · omega
      · rfl
  · intro k _
    rw [getD_swapAt (hlength ▸ hi) (hlength ▸ hj), getD_swapAt hi hj, Equiv.swap_apply_self]

/-- A multi-index of a swapped shape is a swapped one of the shape. -/
theorem InShape.swapAt (h : InShape index (swapAt shape i j)) (hi : i < shape.length)
    (hj : j < shape.length) : InShape (Tensor.swapAt index i j) shape := by
  have hlength : index.length = shape.length := by rw [h.length_eq, length_swapAt]
  refine ⟨by rw [length_swapAt, hlength], fun k hk ↦ ?_⟩
  have hswap : Equiv.swap i j k < shape.length := by
    rw [Equiv.swap_apply_def]
    split
    · exact hj
    · split
      · exact hi
      · exact hk
  have hlt := h.lt (Equiv.swap i j k) (by rw [length_swapAt]; exact hswap)
  rw [getD_swapAt hi hj, Equiv.swap_apply_self] at hlt
  rw [getD_swapAt (hlength ▸ hi) (hlength ▸ hj)]
  exact hlt

end Swapping

section Shifting

variable {d start length : Nat}

/-- A multi-index moved along a dimension. -/
def shiftAt (index : List Nat) (d start : Nat) : List Nat := index.set d (index.getD d 0 + start)

private theorem distance_shiftAt (hd : d < index.length) (strides : List Nat) :
    distance (shiftAt index d start) strides =
      start * strides.getD d 0 + distance index strides := by
  induction index generalizing d strides with
  | nil => cases hd
  | cons i index ih =>
    cases d with
    | zero =>
      have hhead : strides.getD 0 0 = strides.headD 0 := by cases strides <;> rfl
      rw [hhead, shiftAt, List.set_cons_zero, distance, distance, List.getD_cons_zero, Nat.add_mul]
      omega
    | succ d =>
      have htail : strides.getD (d + 1) 0 = strides.tail.getD d 0 := by cases strides <;> rfl
      have hrest := ih (Nat.lt_of_succ_lt_succ hd) strides.tail
      rw [shiftAt] at hrest
      rw [htail, shiftAt, List.set_cons_succ, distance, distance, List.getD_cons_succ, hrest]
      omega

private theorem InShape.shiftAt (h : InShape index (shape.set d length)) (hd : d < shape.length)
    (hfits : start + length ≤ shape.getD d 0) : InShape (Tensor.shiftAt index d start) shape := by
  have hlength : index.length = shape.length := by rw [h.length_eq, List.length_set]
  refine ⟨by rw [Tensor.shiftAt, List.length_set, hlength], fun k hk ↦ ?_⟩
  have hlt := h.lt k (by rw [List.length_set]; exact hk)
  rw [List.getD_eq_getElem?_getD, List.getD_eq_getElem?_getD] at hlt ⊢
  rw [Tensor.shiftAt, List.getElem?_set]
  rw [List.getElem?_set] at hlt
  by_cases hdk : d = k
  · subst hdk
    rw [if_pos rfl, if_pos hd, Option.getD_some] at hlt
    rw [if_pos rfl, if_pos (hlength ▸ hd), Option.getD_some, List.getD_eq_getElem?_getD]
    rw [List.getD_eq_getElem?_getD] at hfits
    omega
  · rw [if_neg hdk] at hlt ⊢
    exact hlt

end Shifting

/-- A swapped view has at a multi-index the element at the swapped one. -/
theorem place_transpose {i j : Nat} (hlength : t.strides.length = index.length)
    (hi : i < index.length) (hj : j < index.length) :
    (t.transpose i j).place index = t.place (swapAt index i j) :=
  congrArg (t.offset + ·) (distance_swapAt hlength hi hj)

/-- A narrowed view has at a multi-index the element at the moved one. -/
theorem place_narrow {d start : Nat} (hd : d < index.length) (length : Nat) :
    (t.narrow d start length).place index = t.place (shiftAt index d start) := by
  rw [place, place, distance_shiftAt hd, ← Nat.add_assoc]
  rfl

/-- A view of stored elements in row-major order, by swapping and narrowing dimensions. -/
inductive IsView : Tensor → Prop
  | ofElements {elements : Elements} {shape : List Nat} (h : elements.Hold (count shape)) :
      IsView (ofElements elements shape)
  | transpose {t : Tensor} {i j : Nat} (h : IsView t) (hi : i < t.shape.length)
      (hj : j < t.shape.length) : IsView (t.transpose i j)
  | narrow {t : Tensor} {d start length : Nat} (h : IsView t) (hd : d < t.shape.length)
      (hfits : start + length ≤ t.shape.getD d 0) : IsView (t.narrow d start length)

/-- There is a stride for each dimension, and the element of every multi-index is stored, unless the
elements are of a type that is only refused. -/
structure WellPlaced (t : Tensor) : Prop where
  length_eq : t.strides.length = t.shape.length
  hold : t.elements.Hold 0
  stored : ∀ index, InShape index t.shape → t.elements.Hold (t.place index + 1)

/-- Elements in row-major order are well placed. -/
theorem wellPlaced_ofElements {elements : Elements} (h : elements.Hold (count shape)) :
    (ofElements elements shape).WellPlaced where
  length_eq := by
    have hlength : ∀ shape : List Nat, (rowMajor shape).length = shape.length := by
      intro shape
      induction shape with
      | nil => rfl
      | cons n shape ih => rw [rowMajor, List.length_cons, ih, List.length_cons]
    exact hlength shape
  hold := h.mono (Nat.zero_le _)
  stored := by
    intro index hindex
    obtain ⟨hlt, -⟩ := List.getElem?_eq_some_iff.mp (getElem?_multiIndices hindex)
    rw [length_multiIndices] at hlt
    apply h.mono
    rw [place, ofElements, Nat.zero_add]
    exact hlt

/-- Swapping two dimensions keeps a tensor well placed. -/
theorem WellPlaced.transpose (h : t.WellPlaced) {i j : Nat} (hi : i < t.shape.length)
    (hj : j < t.shape.length) : (t.transpose i j).WellPlaced where
  length_eq := by simp [Tensor.transpose, h.length_eq]
  hold := h.hold
  stored := by
    intro index hindex
    have hlength : index.length = t.shape.length := by
      rw [hindex.length_eq, Tensor.transpose, length_swapAt]
    rw [place_transpose (h.length_eq.trans hlength.symm) (hlength ▸ hi) (hlength ▸ hj)]
    exact h.stored _ (hindex.swapAt hi hj)

/-- Narrowing a dimension keeps a tensor well placed. -/
theorem WellPlaced.narrow (h : t.WellPlaced) {d start length : Nat} (hd : d < t.shape.length)
    (hfits : start + length ≤ t.shape.getD d 0) : (t.narrow d start length).WellPlaced where
  length_eq := by simp [Tensor.narrow, h.length_eq]
  hold := h.hold
  stored := by
    intro index hindex
    have hlength : index.length = t.shape.length := by
      rw [hindex.length_eq, Tensor.narrow, List.length_set]
    rw [place_narrow (hlength ▸ hd)]
    exact h.stored _ (hindex.shiftAt hd hfits)

/-- Every view is well placed. -/
theorem IsView.wellPlaced (h : t.IsView) : t.WellPlaced := by
  induction h with
  | ofElements h => exact wellPlaced_ofElements h
  | transpose _ hi hj ih => exact ih.transpose hi hj
  | narrow _ hd hfits ih => exact ih.narrow hd hfits

end Tensor

end IndexedCodebook
