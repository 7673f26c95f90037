import IndexedCodebook.Proofs.Gather
import IndexedCodebook.Tensor.Cast

/-!
# Contiguous tensors

A tensor is contiguous if its elements lie in row-major order from the first stored element on and
are all there. Reading it takes the first stored elements as they lie (`logical_eq_ok`), so what its
reading gives depends on the integers or the single-precision values of these elements and not on
how they are stored: `reads_indices` for index tensors, `reads_values` for value tensors.
-/

namespace IndexedCodebook

open Outcome

namespace ElementType

/-- Whether indices are read from tensors of a type. -/
def isIndex : ElementType → Bool
  | u8 | u32 | i32 => true
  | _ => false

/-- Whether a type is one of the float types that values are read from and can be cast to. -/
def isValue : ElementType → Bool
  | f64 | f32 | f16 | bf16 => true
  | _ => false

end ElementType

namespace Elements

/-- At least `n` elements are stored; nothing is stored of the types that are only refused. -/
def Hold (n : Nat) : Elements → Prop
  | f64 xs => n ≤ xs.size
  | f32 xs => n ≤ xs.size
  | f16 xs => n ≤ xs.size
  | bf16 xs => n ≤ xs.size
  | u32 xs => n ≤ xs.size
  | u8 xs => n ≤ xs.size
  | i32 xs => n ≤ xs.size
  | other type => type.isIndex = false ∧ type.isValue = false

/-- The first stored integers; elements of the other types are none. -/
def integers (n : Nat) : Elements → Array Int
  | u8 xs => (xs.take n).map fun x ↦ x.toNat
  | u32 xs => (xs.take n).map fun x ↦ x.toNat
  | i32 xs => (xs.take n).map (·.toInt)
  | _ => #[]

/-- The first stored values, cast to single precision; elements of the other types are none. -/
def singles (n : Nat) : Elements → Array Single
  | f64 xs => (xs.take n).map (·.convert binary32)
  | f32 xs => xs.take n
  | f16 xs => (xs.take n).map (·.convert binary32)
  | bf16 xs => (xs.take n).map (·.convert binary32)
  | _ => #[]

end Elements

namespace Tensor

/-- The elements lie in row-major order from the first stored element on and are all stored. -/
structure Contiguous (t : Tensor) : Prop where
  inOrder : t.isContiguous
  stored : t.elements.Hold (count t.shape)

/-- The integers of a tensor in row-major order. -/
def integers (t : Tensor) : Array Int := t.elements.integers (count t.shape)

/-- The integers of a tensor in row-major order as indices. -/
def words (t : Tensor) : Array UInt64 := t.integers.map fun x ↦ .ofNat x.toNat

/-- The values of a tensor in row-major order, cast to single precision. -/
def singles (t : Tensor) : Array Single := t.elements.singles (count t.shape)

/-- The lowest position of a negative integer is `position`, and `value` is the integer there. -/
structure FirstNegative (xs : Array Int) (position : Nat) (value : Int) : Prop where
  here : xs[position]? = some value
  negative : value < 0
  lowest : ∀ i < position, ∀ x, xs[i]? = some x → 0 ≤ x

/-- A tensor is refused as indices for its element type, or else for its first negative integer. -/
inductive IndicesRefused (name : Argument) (t : Tensor) : Fault → Prop
  | type (h : t.elements.type.isIndex = false) :
      IndicesRefused name t (.argument name (.notIndices t.elements.type))
  | negative {position : Nat} {value : Int} (h : FirstNegative t.integers position value) :
      IndicesRefused name t (.argument name (.negativeIndex value position))

/-- A tensor is refused as values for its element type only. -/
inductive ValuesRefused (name : Argument) (t : Tensor) : Fault → Prop
  | type (h : t.elements.type.isValue = false) :
      ValuesRefused name t (.argument name (.valuesNotFloat t.elements.type))

/-- Elements in row-major order are a contiguous tensor of a shape that has no more of them. -/
theorem contiguous_ofElements {elements : Elements} {shape : List Nat}
    (h : elements.Hold (count shape)) : (ofElements elements shape).Contiguous :=
  ⟨by simp [isContiguous, ofElements], h⟩

/-- In row-major order the distances from the first element count up. -/
theorem distances_rowMajor (shape : List Nat) :
    distances shape (rowMajor shape) = List.range (count shape) := by
  induction shape with
  | nil => rfl
  | cons n shape ih =>
    rw [rowMajor, distances, List.tail_cons, List.headD_cons, ih]
    exact flatMap_range_blocks n (count shape)

variable {α : Type} {t : Tensor} {name : Argument}

/-- Elements in row-major order are the first stored ones. -/
theorem logical_eq_ok {xs : Array α} (h : t.isContiguous) (hs : count t.shape ≤ xs.size) :
    t.logical xs = .ok (xs.take (count t.shape)) := by
  obtain ⟨ho, hr⟩ : t.offset = 0 ∧ t.strides = rowMajor t.shape := by
    simpa [isContiguous] using h
  have hread : (List.range (count t.shape)).mapM (fun d ↦ Tensor.stored xs (0 + d)) =
      .ok (xs.take (count t.shape)).toList := by
    apply mapM_eq_ok
    · simp [hs]
    · intro i hx hy
      have hi : i < xs.size := Nat.lt_of_lt_of_le (by simpa using hx) hs
      simp [Tensor.stored, hi]
  rw [logical, hr, ho, distances_rowMajor, hread]
  rfl

private theorem inPlace_eq_ok {xs : Array α} (h : t.isContiguous) (hs : count t.shape ≤ xs.size) :
    t.inPlace xs = .ok (xs.take (count t.shape)) := by
  rw [inPlace, if_pos h, logical_eq_ok h hs]

private theorem firstNegative?_eq_some_iff {xs : Array Int32} {fault : Fault} :
    firstNegative? name xs = some fault ↔
      ∃ position value, FirstNegative (xs.map (·.toInt)) position value ∧
        fault = .argument name (.negativeIndex value position) := by
  have hat : ∀ {i : Nat} {x : Int}, (xs.map (·.toInt))[i]? = some x ↔
      i < xs.size ∧ (xs.getD i 0).toInt = x := by
    intro i x
    by_cases hi : i < xs.size
    · simp [hi]
    · simp [hi]
  rw [firstNegative?, findSome?_range_eq_some_iff]
  simp only [Option.ite_none_right_eq_some, Option.some.injEq]
  constructor
  · rintro ⟨p, hp, ⟨hneg, rfl⟩, hlow⟩
    refine ⟨p, _, ⟨hat.mpr ⟨hp, rfl⟩, hneg, fun i hi x hx ↦ ?_⟩, rfl⟩
    obtain ⟨-, rfl⟩ := hat.mp hx
    simpa using hlow i hi
  · rintro ⟨p, value, ⟨hhere, hneg, hlow⟩, rfl⟩
    obtain ⟨hp, rfl⟩ := hat.mp hhere
    refine ⟨p, hp, ⟨hneg, rfl⟩, fun i hi ↦ if_neg ?_⟩
    exact Int.not_lt.mpr (hlow i hi _ (hat.mpr ⟨Nat.lt_trans hi hp, rfl⟩))

private theorem integers_eq_empty (ht : t.elements.type.isIndex = false) : t.integers = #[] := by
  obtain ⟨elements, shape, strides, offset⟩ := t
  cases elements with
  | u8 | u32 | i32 => cases ht
  | f64 | f32 | f16 | bf16 | other => rfl

/-- Tensors of an index type are refused for their first negative integer alone. -/
theorem indicesRefused_iff (ht : t.elements.type.isIndex) {fault : Fault} :
    t.IndicesRefused name fault ↔
      ∃ position value, FirstNegative t.integers position value ∧
        fault = .argument name (.negativeIndex value position) := by
  constructor
  · rintro (h | h)
    · rw [ht] at h
      cases h
    · exact ⟨_, _, h, rfl⟩
  · rintro ⟨position, value, h, rfl⟩
    exact .negative h

private theorem indicesRefused_iff_of_type (ht : t.elements.type.isIndex = false) {fault : Fault} :
    t.IndicesRefused name fault ↔ fault = .argument name (.notIndices t.elements.type) := by
  constructor
  · rintro (_ | ⟨hhere, -, -⟩)
    · rfl
    · rw [integers_eq_empty ht] at hhere
      cases hhere
  · rintro rfl
    exact .type ht

/-- Without a negative integer they are not refused. -/
theorem not_indicesRefused (ht : t.elements.type.isIndex) (h : ∀ x ∈ t.integers, 0 ≤ x)
    (fault : Fault) : ¬ t.IndicesRefused name fault := by
  rw [indicesRefused_iff ht]
  rintro ⟨position, value, ⟨hhere, hneg, -⟩, -⟩
  exact absurd (h value (Array.mem_of_getElem? hhere)) (Int.not_le.mpr hneg)

/-- The indices of a contiguous tensor are its integers, unless it is refused as indices. -/
theorem reads_indices (h : t.Contiguous) :
    Reads (t.indices name) (t.IndicesRefused name) t.words := by
  have hstored := h.stored
  cases he : t.elements with
  | u8 xs | u32 xs =>
    rw [he] at hstored
    have hread : t.inPlace xs = .ok (xs.take (count t.shape)) := inPlace_eq_ok h.inOrder hstored
    have hwords : t.indices name = .ok t.words := by
      simp [indices, words, integers, Elements.integers, he, hread, Function.comp_def]
    rw [hwords]
    refine reads_ok (not_indicesRefused (by rw [he]; rfl) fun x hx ↦ ?_)
    rw [integers, he, Elements.integers, Array.mem_map] at hx
    obtain ⟨y, -, rfl⟩ := hx
    exact Int.natCast_nonneg _
  | i32 xs =>
    rw [he] at hstored
    have hread : t.inPlace xs = .ok (xs.take (count t.shape)) := inPlace_eq_ok h.inOrder hstored
    have hrefused : ∀ fault, t.IndicesRefused name fault ↔
        firstNegative? name (xs.take (count t.shape)) = some fault := by
      intro fault
      rw [indicesRefused_iff (by rw [he]; rfl), firstNegative?_eq_some_iff, integers, he]
      rfl
    cases hn : firstNegative? name (xs.take (count t.shape)) with
    | none =>
      have hwords : t.indices name = .ok t.words := by
        simp [indices, words, integers, Elements.integers, he, hread, hn, Function.comp_def]
      rw [hwords]
      exact reads_ok fun fault hf ↦ by simp [hrefused, hn] at hf
    | some fault =>
      have hfault : t.indices name = .error fault := by simp [indices, he, hread, hn]
      rw [hfault]
      exact reads_error fun e ↦ by simp [hrefused, hn, eq_comm]
  | f64 | f32 | f16 | bf16 =>
    have hfault : t.indices name = .error (.argument name (.notIndices t.elements.type)) := by
      rw [indices, he]
    rw [hfault]
    exact reads_error fun _ ↦ indicesRefused_iff_of_type (by rw [he]; rfl)
  | other type =>
    rw [he] at hstored
    have hfault : t.indices name = .error (.argument name (.notIndices t.elements.type)) := by
      rw [indices, he]
    rw [hfault]
    exact reads_error fun _ ↦ indicesRefused_iff_of_type (by rw [he]; exact hstored.1)

/-- Tensors of a value type are not refused as values. -/
theorem not_valuesRefused (ht : t.elements.type.isValue) (fault : Fault) :
    ¬ t.ValuesRefused name fault := by
  rintro ⟨hf⟩
  rw [ht] at hf
  cases hf

private theorem valuesRefused_iff_of_type (ht : t.elements.type.isValue = false) {fault : Fault} :
    t.ValuesRefused name fault ↔ fault = .argument name (.valuesNotFloat t.elements.type) := by
  constructor
  · rintro ⟨-⟩
    rfl
  · rintro rfl
    exact .type ht

/-- The values of a contiguous tensor are its single-precision values, unless it is refused. -/
theorem reads_values (h : t.Contiguous) :
    Reads (t.values name) (t.ValuesRefused name) t.singles := by
  have hstored := h.stored
  cases he : t.elements with
  | f64 xs | f16 xs | bf16 xs =>
    rw [he] at hstored
    have hread : t.logical xs = .ok (xs.take (count t.shape)) := logical_eq_ok h.inOrder hstored
    have hvalues : t.values name = .ok t.singles := by
      simp [values, singles, Elements.singles, he, hread]
    rw [hvalues]
    exact reads_ok (not_valuesRefused (by rw [he]; rfl))
  | f32 xs =>
    rw [he] at hstored
    have hvalues : t.values name = .ok t.singles := by
      simp [values, singles, Elements.singles, he, inPlace_eq_ok h.inOrder hstored]
    rw [hvalues]
    exact reads_ok (not_valuesRefused (by rw [he]; rfl))
  | u8 | u32 | i32 =>
    have hfault : t.values name = .error (.argument name (.valuesNotFloat t.elements.type)) := by
      rw [values, he]
    rw [hfault]
    exact reads_error fun _ ↦ valuesRefused_iff_of_type (by rw [he]; rfl)
  | other type =>
    rw [he] at hstored
    have hfault : t.values name = .error (.argument name (.valuesNotFloat t.elements.type)) := by
      rw [values, he]
    rw [hfault]
    exact reads_error fun _ ↦ valuesRefused_iff_of_type (by rw [he]; exact hstored.2)

end Tensor

end IndexedCodebook
