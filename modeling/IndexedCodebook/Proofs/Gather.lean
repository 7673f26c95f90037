import IndexedCodebook.Gather
import IndexedCodebook.Proofs.Addressing.Reach
import IndexedCodebook.Proofs.Outcome

/-!
# The gather position by position

The tasks of the groups write the positions of their groups one after the other, so a gather is one
sequence of writes, each of a value that depends on its position alone (`gatherInOrder_eq_writes`).
The tasks of all groups, in any order, write every position once (`perm_flatMap_groupPositions`). If
every position has a value, the gathered output holds exactly these values (`gather_eq_ok`), and a
position has one if its exact address lies in the codebook and has 64 bits (`valueAt_entry`).
-/

namespace IndexedCodebook

open Outcome

variable {α : Type}

/-- A read inside a sequence gives the element there. -/
theorem Lookup.element_eq_ok {xs : Array α} {i : Nat} (h : i < xs.size) (fallback : α) :
    element xs i = .ok (xs.getD i fallback) := by
  rw [element, Array.getD_eq_getD_getElem?, Array.getElem?_eq_getElem h, Option.getD_some]

/-- Blocks of one size, one after the other, are a whole range. -/
theorem flatMap_range_blocks (blocks size : Nat) :
    ((List.range blocks).flatMap fun b ↦ (List.range size).map (b * size + ·)) =
      List.range (blocks * size) := by
  induction blocks with
  | zero => rw [Nat.zero_mul, List.range_zero, List.flatMap_nil]
  | succ blocks ih =>
    rw [Nat.succ_mul, List.range_succ, List.flatMap_append, ih, List.flatMap_singleton,
      List.range_add]

namespace Indices

/-- The 64-bit address of a position, computed without a check. -/
def wrappedAt (indices : Indices) (groupSize : Nat) (stride : UInt64) (position : Nat) : UInt64 :=
  indices.rowAt groupSize position * stride + indices.colAt position

/-- What is written at a position. -/
def valueAt (indices : Indices) (lookup : Lookup α) (groupSize : Nat) (stride : UInt64)
    (position : Nat) : Except Fault α :=
  lookup (position / groupSize) (indices.wrappedAt groupSize stride position)

/-- The unchecked address is the exact one if that has 64 bits. -/
theorem toNat_wrappedAt {indices : Indices} {groupSize : Nat} {stride : UInt64} {position : Nat}
    (h : indices.addressAt groupSize stride position < 2 ^ 64) :
    (indices.wrappedAt groupSize stride position).toNat =
      indices.addressAt groupSize stride position := by
  unfold addressAt at h ⊢
  rw [wrappedAt, UInt64.toNat_add, UInt64.toNat_mul, Nat.mod_eq_of_lt (by omega : _ * _ < _),
    Nat.mod_eq_of_lt h]

/-- Write one position. -/
def write (indices : Indices) (lookup : Lookup α) (groupSize : Nat) (stride : UInt64)
    (output : Array α) (position : Nat) : Except Fault (Array α) := do
  let value ← indices.valueAt lookup groupSize stride position
  return output.setIfInBounds position value

/-- The positions of a group are those below the number of columns that the group size divides to
the group. -/
theorem mem_groupPositions_iff {groupSize columns group position : Nat} (hg : 0 < groupSize) :
    position ∈ groupPositions groupSize columns group ↔
      position / groupSize = group ∧ position < columns := by
  simp only [groupPositions, List.mem_map, List.mem_range]
  constructor
  · rintro ⟨k, hk, rfl⟩
    refine ⟨?_, by omega⟩
    rw [Nat.add_comm, Nat.add_mul_div_right _ _ hg, Nat.div_eq_of_lt (by omega), Nat.zero_add]
  · rintro ⟨rfl, hlt⟩
    have hm := Nat.mod_lt position hg
    have he := Nat.div_add_mod' position groupSize
    exact ⟨position % groupSize, by omega, he⟩

private theorem flatMap_groupPositions_range {groupSize columns groups : Nat}
    (h : groups * groupSize ≤ columns) :
    (List.range groups).flatMap (groupPositions groupSize columns) =
      List.range (groups * groupSize) := by
  rw [← flatMap_range_blocks, List.flatMap_def, List.flatMap_def]
  congr 1
  apply List.map_congr_left
  intro group hgroup
  have hlast : (group + 1) * groupSize ≤ groups * groupSize :=
    Nat.mul_le_mul_right _ (List.mem_range.mp hgroup)
  rw [Nat.succ_mul] at hlast
  rw [groupPositions, Nat.min_eq_left (by omega)]

/-- In whatever order whole groups are taken, every position is taken once. -/
theorem perm_flatMap_groupPositions {groupSize columns groups : Nat} {order : List Nat}
    (h : groups * groupSize = columns) (horder : order.Perm (List.range groups)) :
    (order.flatMap (groupPositions groupSize columns)).Perm (List.range columns) := by
  have hall := flatMap_groupPositions_range (Nat.le_of_eq h)
  rw [h] at hall
  rw [← hall]
  exact horder.flatMap_right _

private theorem fillGroup_eq_writes {indices : Indices} {lookup : Lookup α} {groupSize : Nat}
    {stride : UInt64} {group : Nat} (hg : 0 < groupSize) (hr : group < indices.rows.size)
    (output : Array α) :
    indices.fillGroup lookup groupSize stride output group =
      (groupPositions groupSize indices.cols.size group).foldlM
        (indices.write lookup groupSize stride) output := by
  rw [fillGroup, Lookup.element, Array.getElem?_eq_getElem hr, ok_bind]
  apply foldlM_congr
  intro out p hp
  obtain ⟨rfl, hlt⟩ := (mem_groupPositions_iff hg).mp hp
  have hrow : indices.rowAt groupSize p = indices.rows[p / groupSize] := by
    rw [rowAt, Array.getD_eq_getD_getElem?, Array.getElem?_eq_getElem hr, Option.getD_some]
  have hcol : indices.colAt p = indices.cols[p] := by
    rw [colAt, Array.getD_eq_getD_getElem?, Array.getElem?_eq_getElem hlt, Option.getD_some]
  rw [fillPosition, Lookup.element, Array.getElem?_eq_getElem hlt, write, valueAt, wrappedAt, hrow,
    hcol, ok_bind]

/-- The tasks of groups that have rows write the positions of the groups, group after group. -/
theorem gatherInOrder_eq_writes {indices : Indices} {lookup : Lookup α} {groupSize : Nat}
    {stride : UInt64} {order : List Nat} (hg : 0 < groupSize)
    (hr : ∀ group ∈ order, group < indices.rows.size) (output : Array α) :
    indices.gatherInOrder lookup groupSize stride order output =
      (order.flatMap (groupPositions groupSize indices.cols.size)).foldlM
        (indices.write lookup groupSize stride) output := by
  rw [← foldlM_flatMap, gatherInOrder]
  apply foldlM_congr
  intro out group hgroup
  exact fillGroup_eq_writes hg (hr group hgroup) out

private theorem getElem?_foldl_set (value : Nat → α) (positions : List Nat) (output : Array α)
    (i : Nat) :
    (positions.foldl (fun out p ↦ out.setIfInBounds p (value p)) output)[i]? =
      if i ∈ positions ∧ i < output.size then some (value i) else output[i]? := by
  induction positions generalizing output with
  | nil => simp
  | cons p positions ih =>
    rw [List.foldl_cons, ih, Array.size_setIfInBounds, Array.getElem?_setIfInBounds]
    by_cases hi : p = i
    · subst hi
      by_cases hs : p < output.size
      · simp [hs]
      · simp [hs]
    · simp [hi, Ne.symm hi]

/-- If every position has a value, writing all positions in any order gives exactly the values, on
whatever output. -/
theorem foldlM_write_eq_ok {indices : Indices} {lookup : Lookup α} {groupSize : Nat}
    {stride : UInt64} {positions : List Nat} {value : Nat → α} {output : Array α}
    (hperm : positions.Perm (List.range indices.cols.size))
    (hv : ∀ i < indices.cols.size, indices.valueAt lookup groupSize stride i = .ok (value i))
    (hout : output.size = indices.cols.size) :
    positions.foldlM (indices.write lookup groupSize stride) output =
      .ok ((Array.range indices.cols.size).map value) := by
  have hmem : ∀ {i}, i ∈ positions ↔ i < indices.cols.size := by
    intro i
    rw [hperm.mem_iff, List.mem_range]
  rw [foldlM_eq_ok fun out p ↦ out.setIfInBounds p (value p)]
  · congr 1
    apply Array.ext_getElem?
    intro i
    simp only [getElem?_foldl_set, hmem, hout]
    by_cases hi : i < indices.cols.size
    · simp [hi]
    · simp [hi, hout]
  · intro out p hp
    rw [write, hv p (hmem.mp hp), ok_bind, pure_eq_ok]

/-- If the rows have whole groups of columns and every position has a value, the gathered output
holds exactly the values of the positions. -/
theorem gather_eq_ok {indices : Indices} {lookup : Lookup α} {groupSize : Nat} {stride : UInt64}
    {value : Nat → α} (hg : 0 < groupSize)
    (hsize : indices.rows.size * groupSize = indices.cols.size)
    (hv : ∀ i < indices.cols.size,
      indices.valueAt lookup groupSize stride i = .ok (value i)) (blank : α) :
    indices.gather lookup groupSize stride blank =
      .ok ((Array.range indices.cols.size).map value) := by
  rw [gather, if_neg (Nat.pos_iff_ne_zero.mp hg),
    gatherInOrder_eq_writes hg fun group h ↦ List.mem_range.mp h]
  exact foldlM_write_eq_ok (perm_flatMap_groupPositions hsize (List.Perm.refl _)) hv
    Array.size_replicate

section Values

variable {indices : Indices} {codebook : Array Single} {groupSize : Nat} {stride : UInt64}
  {position : Nat}

/-- A position whose exact address has 64 bits and lies in the codebook has the entry there. -/
theorem valueAt_entry (h : indices.addressAt groupSize stride position < 2 ^ 64)
    (hlt : indices.addressAt groupSize stride position < codebook.size) (fallback : Single) :
    indices.valueAt (.entry codebook) groupSize stride position =
      .ok (codebook.getD (indices.addressAt groupSize stride position) fallback) := by
  rw [valueAt, Lookup.entry, toNat_wrappedAt h, Lookup.element_eq_ok hlt fallback]

/-- If its group has a scale too, it has the product of the two. -/
theorem valueAt_scaled {scales : Array Single}
    (h : indices.addressAt groupSize stride position < 2 ^ 64)
    (hlt : indices.addressAt groupSize stride position < codebook.size)
    (hs : position / groupSize < scales.size) (fallback : Single) :
    indices.valueAt (.scaled codebook scales) groupSize stride position =
      .ok ((codebook.getD (indices.addressAt groupSize stride position) fallback).mul
        (scales.getD (position / groupSize) fallback)) := by
  rw [valueAt, Lookup.scaled, toNat_wrappedAt h, Lookup.element_eq_ok hlt fallback,
    Lookup.element_eq_ok hs fallback, ok_bind, ok_bind, pure_eq_ok]

/-- Rounded to bfloat16, it has the rounded entry. -/
theorem valueAt_bfloat (h : indices.addressAt groupSize stride position < 2 ^ 64)
    (hlt : indices.addressAt groupSize stride position < codebook.size) (fallback : Single) :
    indices.valueAt (.bfloat codebook) groupSize stride position =
      .ok ((codebook.getD (indices.addressAt groupSize stride position) fallback).convert
        bfloat16) := by
  rw [valueAt, Lookup.bfloat, toNat_wrappedAt h, Lookup.element_eq_ok hlt fallback, ok_bind,
    pure_eq_ok]

end Values

end Indices

end IndexedCodebook
