import IndexedCodebook.Proofs.Binary.Closest
import IndexedCodebook.Proofs.Gather

/-!
# The gather in any order

No task of a gather reads what a task writes, so neither the order of the tasks nor what the output
held before matters: `gather_in_any_order` gives the outcome position by position. The tasks compare
no column index with its cardinality; a column beyond it reads the entry that the pair of a higher
row and its remainder resolves to (`resolve?_of_addressAt`).
-/

namespace IndexedCodebook

open Outcome

variable {α : Type}

private theorem Lookup.element_eq_stray {xs : Array α} {i : Nat} (h : ¬ i < xs.size) :
    element xs i = .error .stray := by
  rw [element, Array.getElem?_eq_none (Nat.le_of_not_lt h)]

namespace Indices

/-- The values of all positions, unless the exact address of one lies beyond the codebook. -/
def byPosition (indices : Indices) (groupSize : Nat) (stride : UInt64) (entries : Nat)
    (value : Nat → α) : Except Fault (Array α) :=
  if ∀ i < indices.cols.size, indices.addressAt groupSize stride i < entries then
    .ok ((Array.range indices.cols.size).map value)
  else .error .stray

/-- The tasks of the groups, run in some order, give the values of the positions. -/
structure FillsInOrder (indices : Indices) (lookup : Lookup α) (groupSize : Nat)
    (stride : UInt64) (entries : Nat) (value : Nat → α) (order : List Nat) : Prop where
  /-- The tasks write the positions of their groups one after the other. -/
  writes : ∀ output : Array α, indices.gatherInOrder lookup groupSize stride order output =
    (order.flatMap (groupPositions groupSize indices.cols.size)).foldlM
      (indices.write lookup groupSize stride) output
  /-- What the output held before does not matter. -/
  result : ∀ output : Array α, output.size = indices.cols.size →
    indices.gatherInOrder lookup groupSize stride order output =
      indices.byPosition groupSize stride entries value
  /-- The writes of different tasks may come in any order too. -/
  interleaved : ∀ (positions : List Nat) (output : Array α),
    positions.Perm (List.range indices.cols.size) → output.size = indices.cols.size →
    positions.foldlM (indices.write lookup groupSize stride) output =
      indices.byPosition groupSize stride entries value
  /-- The order of the groups is one of the orders. -/
  gather : ∀ blank, indices.gather lookup groupSize stride blank =
    indices.byPosition groupSize stride entries value

variable {indices : Indices} {lookup : Lookup α} {groupSize : Nat} {stride : UInt64}
  {entries : Nat} {value : Nat → α}

private theorem foldlM_write_eq_byPosition {positions : List Nat} {output : Array α}
    (hperm : positions.Perm (List.range indices.cols.size))
    (hv : ∀ i < indices.cols.size, indices.valueAt lookup groupSize stride i =
      if indices.addressAt groupSize stride i < entries then .ok (value i) else .error .stray)
    (hout : output.size = indices.cols.size) :
    positions.foldlM (indices.write lookup groupSize stride) output =
      indices.byPosition groupSize stride entries value := by
  unfold byPosition
  split
  · next hall =>
    apply foldlM_write_eq_ok hperm _ hout
    intro i hi
    rw [hv i hi, if_pos (hall i hi)]
  · next hbad =>
    obtain ⟨i, hi, hbeyond⟩ : ∃ i, ∃ _ : i < indices.cols.size,
        ¬ indices.addressAt groupSize stride i < entries := by
      simpa only [Classical.not_forall] using hbad
    have hmem : i ∈ positions := hperm.mem_iff.mpr (List.mem_range.mpr hi)
    refine foldlM_eq_error ?_ hmem ?_ output
    · intro out p hp fault hfault
      have hlt : p < indices.cols.size := List.mem_range.mp (hperm.mem_iff.mp hp)
      rw [write, hv p hlt] at hfault
      split at hfault
      · cases hfault
      · cases hfault
        rfl
    · intro out
      rw [write, hv i hi, if_neg hbeyond, error_bind]

private theorem fillsInOrder {order : List Nat} (hg : 0 < groupSize)
    (hcols : indices.rows.size * groupSize = indices.cols.size)
    (horder : order.Perm (List.range indices.rows.size))
    (hv : ∀ i < indices.cols.size, indices.valueAt lookup groupSize stride i =
      if indices.addressAt groupSize stride i < entries then .ok (value i) else .error .stray) :
    indices.FillsInOrder lookup groupSize stride entries value order := by
  have hwrites : ∀ order : List Nat, order.Perm (List.range indices.rows.size) → ∀ output,
      indices.gatherInOrder lookup groupSize stride order output =
        (order.flatMap (groupPositions groupSize indices.cols.size)).foldlM
          (indices.write lookup groupSize stride) output := by
    intro order horder output
    exact gatherInOrder_eq_writes hg
      (fun group h ↦ List.mem_range.mp (horder.mem_iff.mp h)) output
  have hresult : ∀ order : List Nat, order.Perm (List.range indices.rows.size) →
      ∀ output, output.size = indices.cols.size →
      indices.gatherInOrder lookup groupSize stride order output =
        indices.byPosition groupSize stride entries value := by
    intro order horder output hout
    rw [hwrites order horder]
    exact foldlM_write_eq_byPosition (perm_flatMap_groupPositions hcols horder) hv hout
  refine ⟨hwrites order horder, hresult order horder, fun positions output hperm hout ↦
    foldlM_write_eq_byPosition hperm hv hout, fun blank ↦ ?_⟩
  rw [Indices.gather, if_neg (Nat.pos_iff_ne_zero.mp hg)]
  exact hresult _ (List.Perm.refl _) _ Array.size_replicate

section Values

variable {codebook scales : Array Single} {position : Nat}

private theorem valueAt_entry_eq (h : indices.addressAt groupSize stride position < 2 ^ 64)
    (fallback : Single) :
    indices.valueAt (.entry codebook) groupSize stride position =
      if indices.addressAt groupSize stride position < codebook.size then
        .ok (codebook.getD (indices.addressAt groupSize stride position) fallback)
      else .error .stray := by
  by_cases hlt : indices.addressAt groupSize stride position < codebook.size
  · rw [if_pos hlt, valueAt_entry h hlt fallback]
  · rw [if_neg hlt, valueAt, Lookup.entry, toNat_wrappedAt h, Lookup.element_eq_stray hlt]

private theorem valueAt_scaled_eq (h : indices.addressAt groupSize stride position < 2 ^ 64)
    (hs : position / groupSize < scales.size) (fallback : Single) :
    indices.valueAt (.scaled codebook scales) groupSize stride position =
      if indices.addressAt groupSize stride position < codebook.size then
        .ok ((codebook.getD (indices.addressAt groupSize stride position) fallback).mul
          (scales.getD (position / groupSize) fallback))
      else .error .stray := by
  by_cases hlt : indices.addressAt groupSize stride position < codebook.size
  · rw [if_pos hlt, valueAt_scaled h hlt hs fallback]
  · rw [if_neg hlt, valueAt, Lookup.scaled, toNat_wrappedAt h, Lookup.element_eq_stray hlt,
      error_bind]

private theorem valueAt_bfloat_eq (h : indices.addressAt groupSize stride position < 2 ^ 64)
    (fallback : Single) :
    indices.valueAt (.bfloat codebook) groupSize stride position =
      if indices.addressAt groupSize stride position < codebook.size then
        .ok ((codebook.getD (indices.addressAt groupSize stride position) fallback).convert
          bfloat16)
      else .error .stray := by
  by_cases hlt : indices.addressAt groupSize stride position < codebook.size
  · rw [if_pos hlt, valueAt_bfloat h hlt fallback]
  · rw [if_neg hlt, valueAt, Lookup.bfloat, toNat_wrappedAt h, Lookup.element_eq_stray hlt,
      error_bind]

end Values

private theorem addressAt_eq_shifted (indices : Indices) (groupSize : Nat) (stride : UInt64)
    (position : Nat) :
    indices.addressAt groupSize stride position =
      ((indices.rowAt groupSize position).toNat +
          (indices.colAt position).toNat / stride.toNat) * stride.toNat +
        (indices.colAt position).toNat % stride.toNat := by
  have hcol := Nat.div_add_mod' (indices.colAt position).toNat stride.toNat
  rw [addressAt, Nat.add_mul]
  omega

private theorem resolve?_of_addressAt {position : Nat} (hs : 0 < stride.toNat)
    (h : indices.addressAt groupSize stride position < 2 ^ 64)
    (hlt : indices.addressAt groupSize stride position < entries) :
    (Addressing.unbounded (.ofNat groupSize) stride).resolve? entries
        (.ofNat ((indices.rowAt groupSize position).toNat +
          (indices.colAt position).toNat / stride.toNat))
        (.ofNat ((indices.colAt position).toNat % stride.toNat)) =
      some (.ofNat (indices.addressAt groupSize stride position)) := by
  rw [addressAt_eq_shifted] at h hlt ⊢
  exact Addressing.resolve?_ofNat (Nat.mod_lt _ hs) (fun rows hrows ↦ nomatch hrows) hlt h

/-- The codebook entry at the exact address of a position. -/
def entryAt (indices : Indices) (codebook : Array Single) (groupSize : Nat) (stride : UInt64)
    (position : Nat) : Single :=
  codebook.getD (indices.addressAt groupSize stride position) (Word.zero false)

/-- The scale of the group of a position. -/
def scaleAt (scales : Array Single) (groupSize position : Nat) : Single :=
  scales.getD (position / groupSize) (Word.zero false)

/-- The tasks of a gather, run in any order, write every position once. If every exact address has
64 bits, every position then holds the entry at its address, the word closest to the product of the
entry and the scale of its group, or the bfloat16 word closest to the entry, whatever it held
before; the gather is stray exactly if some address lies beyond the codebook. A column beyond the
stride is read as further rows. -/
theorem gather_in_any_order (indices : Indices) (codebook scales : Array Single)
    (groupSize : Nat) (stride : UInt64) (order : List Nat) (hg : 0 < groupSize)
    (hcols : indices.rows.size * groupSize = indices.cols.size)
    (h64 : ∀ i < indices.cols.size, indices.addressAt groupSize stride i < 2 ^ 64)
    (horder : order.Perm (List.range indices.rows.size)) :
    (order.flatMap (groupPositions groupSize indices.cols.size)).Perm
      (List.range indices.cols.size) ∧
    indices.FillsInOrder (.entry codebook) groupSize stride codebook.size
      (indices.entryAt codebook groupSize stride) order ∧
    (scales.size = indices.rows.size →
      indices.FillsInOrder (.scaled codebook scales) groupSize stride codebook.size
        (fun i ↦ (indices.entryAt codebook groupSize stride i).mul (scaleAt scales groupSize i))
        order) ∧
    indices.FillsInOrder (.bfloat codebook) groupSize stride codebook.size
      (fun i ↦ (indices.entryAt codebook groupSize stride i).convert bfloat16) order ∧
    (∀ i,
      ((indices.entryAt codebook groupSize stride i).value.mul
          (scaleAt scales groupSize i).value).RoundsTo
        ((indices.entryAt codebook groupSize stride i).mul (scaleAt scales groupSize i)) ∧
      (indices.entryAt codebook groupSize stride i).value.RoundsTo
        ((indices.entryAt codebook groupSize stride i).convert bfloat16)) ∧
    ∀ i < indices.cols.size, 0 < stride.toNat →
      indices.addressAt groupSize stride i < codebook.size →
      (Addressing.unbounded (.ofNat groupSize) stride).resolve? codebook.size
          (.ofNat ((indices.rowAt groupSize i).toNat +
            (indices.colAt i).toNat / stride.toNat))
          (.ofNat ((indices.colAt i).toNat % stride.toNat)) =
        some (.ofNat (indices.addressAt groupSize stride i)) := by
  refine ⟨perm_flatMap_groupPositions hcols horder,
    fillsInOrder hg hcols horder fun i hi ↦ valueAt_entry_eq (h64 i hi) _, fun hscales ↦ ?_,
    fillsInOrder hg hcols horder fun i hi ↦ valueAt_bfloat_eq (h64 i hi) _,
    fun i ↦ ⟨Exact.roundsTo_toWord (by decide) (by decide) _,
      Exact.roundsTo_toWord (by decide) (by decide) _⟩,
    fun i hi hs hlt ↦ resolve?_of_addressAt hs (h64 i hi) hlt⟩
  apply fillsInOrder hg hcols horder
  intro i hi
  have hgroup : i / groupSize < scales.size := by
    rw [hscales, Nat.div_lt_iff_lt_mul hg, hcols]
    exact hi
  exact valueAt_scaled_eq (h64 i hi) hgroup _

/-- The second group first, on an output that is not blank; the column 3 of row 0 is read as column
1 of row 1. -/
theorem gather_in_any_order_reversed :
    Indices.gatherInOrder ⟨#[1, 0], #[0, 1, 3, 1]⟩
        (.entry #[.ofBits 0x3f800000, .ofBits 0x80000000, .ofBits 1, .ofBits 0x7f800000]) 2 2 [1, 0]
        (Array.replicate 4 Word.nan) =
      .ok #[.ofBits 1, .ofBits 0x7f800000, .ofBits 0x7f800000, .ofBits 0x80000000] := by
  have h := gather_in_any_order ⟨#[1, 0], #[0, 1, 3, 1]⟩
    #[.ofBits 0x3f800000, .ofBits 0x80000000, .ofBits 1, .ofBits 0x7f800000] #[] 2 2 [1, 0]
    (by decide) rfl (by decide) (by decide)
  rw [h.2.1.result (Array.replicate 4 Word.nan) rfl, byPosition, if_pos (by decide)]
  exact congrArg Except.ok (by decide +kernel)

end Indices

end IndexedCodebook
