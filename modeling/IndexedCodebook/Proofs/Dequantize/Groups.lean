import IndexedCodebook.Proofs.Dequantize.Forms
import IndexedCodebook.Proofs.Dequantize.Pieces

/-!
# Smaller groups

Groups only save row indices. If every row is repeated `times` times in a row (`repeatEach`) and the
groups are that many times smaller, every position has the row that it had (`rowAt_repeatRows`), so
it has the address and the fault that it had (`faultAt_repeatRows`). The lengths fit again, with
more groups (`Fits.repeatRows`), and all forms of dequantization have the outcome that they had. In
groups of a single position every position has a row of its own.
-/

namespace IndexedCodebook

open Outcome

section RepeatEach

variable {α : Type}

/-- Every element `times` times in a row. -/
def repeatEach (times : Nat) (xs : Array α) : Array α := xs.flatMap (Array.replicate times)

private theorem getElem?_flatMap_replicate {times : Nat} (h : 0 < times) (xs : List α) (i : Nat) :
    (xs.flatMap (List.replicate times))[i]? = xs[i / times]? := by
  induction xs generalizing i with
  | nil => simp
  | cons x xs ih =>
    rw [List.flatMap_cons, List.getElem?_append, List.length_replicate]
    split
    · next hlt => rw [Nat.div_eq_of_lt hlt, List.getElem?_replicate, if_pos hlt,
        List.getElem?_cons_zero]
    · next hle =>
      have hdiv : i / times = (i - times) / times + 1 := by
        rw [← Nat.add_div_right _ h, Nat.sub_add_cancel (Nat.le_of_not_lt hle)]
      rw [ih, hdiv, List.getElem?_cons_succ]

private theorem getElem?_repeatEach {times : Nat} (h : 0 < times) (xs : Array α) (i : Nat) :
    (repeatEach times xs)[i]? = xs[i / times]? := by
  have hlist : (repeatEach times xs).toList = xs.toList.flatMap (List.replicate times) := by
    rw [repeatEach, Array.toList_flatMap]
    congr 1
  rw [← Array.getElem?_toList, hlist, getElem?_flatMap_replicate h, Array.getElem?_toList]

/-- Repeating every element multiplies the length. -/
theorem size_repeatEach (times : Nat) (xs : Array α) :
    (repeatEach times xs).size = xs.size * times := by
  simp [repeatEach, Array.size_flatMap, Array.map_const']

end RepeatEach

/-- The same columns, with every row `times` times in a row. -/
def Indices.repeatRows (indices : Indices) (times : Nat) : Indices :=
  { indices with rows := repeatEach times indices.rows }

/-- Repeating the rows leaves the columns as they are. -/
theorem Indices.cols_repeatRows (indices : Indices) (times : Nat) :
    (indices.repeatRows times).cols = indices.cols := rfl

/-- Repeating the rows multiplies their number. -/
theorem Indices.size_rows_repeatRows (indices : Indices) (times : Nat) :
    (indices.repeatRows times).rows.size = indices.rows.size * times :=
  size_repeatEach times indices.rows

namespace Addressing

variable {a : Addressing} {indices : Indices} {codebook : Array Single} {entries times : Nat}
  {size : UInt64}

/-- The same cardinalities with groups of another size. -/
def withGroupSize (a : Addressing) (size : UInt64) : Addressing := { a with groupSize := size }

private theorem resolve?_withGroupSize (a : Addressing) (size : UInt64) :
    (a.withGroupSize size).resolve? = a.resolve? := rfl

/-- Only the cardinalities decide what is noted about the size of a codebook. -/
theorem sizeEvents_withGroupSize (a : Addressing) (size : UInt64) :
    (a.withGroupSize size).sizeEvents = a.sizeEvents := rfl

private theorem Usable.times_pos (h : a.Usable) (hsize : a.groupSize.toNat = times * size.toNat) :
    0 < times ∧ 0 < size.toNat := by
  have hpos := h.groupSize_pos
  rw [hsize] at hpos
  exact ⟨Nat.pos_of_mul_pos_right hpos, Nat.pos_of_mul_pos_left hpos⟩

/-- With repeated rows, lengths that fit do so for smaller groups. -/
theorem Fits.repeatRows (h : a.Fits indices.rows.size indices.cols.size entries)
    (hsize : a.groupSize.toNat = times * size.toNat) :
    (a.withGroupSize size).Fits (indices.repeatRows times).rows.size
      (indices.repeatRows times).cols.size entries := by
  obtain ⟨-, hpos⟩ := h.usable.times_pos hsize
  have hcolumns : indices.cols.size = indices.rows.size * times * size.toNat := by
    rw [Nat.mul_assoc, ← hsize, h.rows_mul_groupSize]
  refine ⟨⟨hpos, h.usable.colCardinality_pos, h.usable.rowCardinality_pos, h.usable.space_le⟩,
    h.columns_pos, ⟨indices.rows.size * times, ?_⟩, ?_, h.entries_pos⟩
  · exact hcolumns.trans (Nat.mul_comm ..)
  · rw [Indices.size_rows_repeatRows, Indices.cols_repeatRows, hcolumns]
    exact (Nat.mul_div_cancel _ hpos).symm

section Positions

variable (indices codebook)

variable (h : a.Usable) (hsize : a.groupSize.toNat = times * size.toNat)

include h hsize

private theorem getD_repeatEach {α : Type} (xs : Array α) (blank : α) (i : Nat) :
    (repeatEach times xs).getD (i / size.toNat) blank = xs.getD (i / a.groupSize.toNat) blank := by
  rw [Array.getD_eq_getD_getElem?, Array.getD_eq_getD_getElem?,
    getElem?_repeatEach (h.times_pos hsize).1, Nat.div_div_eq_div_mul, hsize, Nat.mul_comm]

/-- In smaller groups with repeated rows every position has the row that it had. -/
theorem rowAt_repeatRows (i : Nat) :
    (indices.repeatRows times).rowAt (a.withGroupSize size).groupSize.toNat i =
      indices.rowAt a.groupSize.toNat i :=
  getD_repeatEach h hsize indices.rows 0 i

private theorem addressAt_repeatRows (i : Nat) :
    (a.withGroupSize size).addressAt (indices.repeatRows times) i = a.addressAt indices i := by
  rw [addressAt, Indices.addressAt, rowAt_repeatRows indices h hsize]
  rfl

/-- It has the entry that it had. -/
theorem entryAt_repeatRows (i : Nat) :
    (a.withGroupSize size).entryAt (indices.repeatRows times) codebook i =
      a.entryAt indices codebook i := by
  rw [entryAt, addressAt_repeatRows indices h hsize, entryAt]

/-- If the scales are repeated too, it has the scale that it had. -/
theorem scaleAt_repeatEach (scales : Array Single) (i : Nat) :
    (a.withGroupSize size).scaleAt (repeatEach times scales) i = a.scaleAt scales i :=
  getD_repeatEach h hsize scales (Word.zero false) i

end Positions

private theorem faultAt_repeatRows (h : a.Fits indices.rows.size indices.cols.size entries)
    (hsize : a.groupSize.toNat = times * size.toNat) {i : Nat} (hi : i < indices.cols.size) :
    (a.withGroupSize size).faultAt (indices.repeatRows times) entries i =
      a.faultAt indices entries i := by
  have hrow := rowAt_repeatRows indices h.usable hsize i
  have haddress := addressAt_repeatRows indices h.usable hsize i
  rw [faultAt_eq (h.repeatRows hsize) hi, faultAt_eq h hi, addressFault, addressFault, hrow,
    haddress, resolve?_withGroupSize]
  rfl

private theorem checkPositions_repeatRows (h : a.Fits indices.rows.size indices.cols.size entries)
    (hsize : a.groupSize.toNat = times * size.toNat) :
    (a.withGroupSize size).checkPositions (indices.repeatRows times) entries =
      a.checkPositions indices entries := by
  have hfirst : (List.range indices.cols.size).findSome?
      ((a.withGroupSize size).faultAt (indices.repeatRows times) entries) =
        (List.range indices.cols.size).findSome? (a.faultAt indices entries) := by
    apply findSome?_congr
    intro i hi
    exact faultAt_repeatRows h hsize (List.mem_range.mp hi)
  rw [checkPositions, checkPositions, ← hfirst]
  rfl

/-- The inputs are accepted or refused as they were, but for the number of groups. -/
theorem result_accept_repeatRows (h : a.Fits indices.rows.size indices.cols.size entries)
    (hsize : a.groupSize.toNat = times * size.toNat) :
    ((a.withGroupSize size).accept (indices.repeatRows times) entries).result =
      (a.accept indices entries).result >>= fun shape ↦
        .ok { shape with groups := shape.groups * times } := by
  have hgroups : (indices.repeatRows times).cols.size / (a.withGroupSize size).groupSize.toNat =
      indices.cols.size / a.groupSize.toNat * times := by
    rw [← (h.repeatRows hsize).rows_eq, ← h.rows_eq, Indices.size_rows_repeatRows]
  rw [result_accept, result_accept, checkLengths_eq_ok_iff.mpr ⟨h.repeatRows hsize, rfl⟩,
    checkLengths_eq_ok_iff.mpr ⟨h, rfl⟩, ok_bind, ok_bind, checkPositions_repeatRows h hsize,
    hgroups]
  cases a.checkPositions indices entries with
  | error fault => rfl
  | ok => rfl

/-- A dequantization has the outcome that it had. -/
theorem result_dequantize_repeatRows
    (h : a.Fits indices.rows.size indices.cols.size codebook.size)
    (hsize : a.groupSize.toNat = times * size.toNat) :
    ((a.withGroupSize size).dequantize (indices.repeatRows times) codebook).result =
      (a.dequantize indices codebook).result := by
  have hentries : (a.withGroupSize size).entryAt (indices.repeatRows times) codebook =
      a.entryAt indices codebook := by
    funext i
    exact entryAt_repeatRows indices codebook h.usable hsize i
  rw [result_dequantize_of_fits (h.repeatRows hsize), result_dequantize_of_fits h,
    checkPositions_repeatRows h hsize, hentries]
  rfl

/-- A dequantization to bfloat16 has the outcome that it had. -/
theorem result_dequantizeBFloat_repeatRows
    (h : a.Fits indices.rows.size indices.cols.size codebook.size)
    (hsize : a.groupSize.toNat = times * size.toNat) :
    ((a.withGroupSize size).dequantizeBFloat (indices.repeatRows times) codebook).result =
      (a.dequantizeBFloat indices codebook).result := by
  rw [result_dequantizeBFloat, result_dequantizeBFloat, result_dequantize_repeatRows h hsize]

/-- With one scale per group, and the scales repeated like the rows, a dequantization with scales
has the outcome that it had. -/
theorem result_dequantizeWithScales_repeatRows {scales : Array Single}
    (h : a.Fits indices.rows.size indices.cols.size codebook.size)
    (hsize : a.groupSize.toNat = times * size.toNat) (hscales : scales.size = indices.rows.size) :
    ((a.withGroupSize size).dequantizeWithScales (indices.repeatRows times) codebook
        (repeatEach times scales)).result =
      (a.dequantizeWithScales indices codebook scales).result := by
  have hcount : (repeatEach times scales).size = (indices.repeatRows times).rows.size := by
    rw [size_repeatEach, hscales, Indices.size_rows_repeatRows]
  have hscale : (a.withGroupSize size).scaleAt (repeatEach times scales) = a.scaleAt scales := by
    funext i
    exact scaleAt_repeatEach h.usable hsize scales i
  rw [result_dequantizeWithScales, result_dequantizeWithScales,
    result_dequantize_repeatRows h hsize, checkScales_eq_ok_iff.mpr hcount,
    checkScales_eq_ok_iff.mpr hscales, hscale]

/-- In groups of one position every position has a row of its own, and a dequantization gives the
entry at its row and its column. -/
theorem entries_of_repeatRows_one {output : Array Single} (hsize : a.groupSize.toNat = times)
    (ho : (a.dequantize indices codebook).result = .ok output) {i : Nat}
    (hi : i < indices.cols.size) :
    ∃ row col entry, (indices.repeatRows times).rows[i]? = some row ∧
      indices.cols[i]? = some col ∧
      codebook[row.toNat * a.colCardinality.toNat + col.toNat]? = some entry ∧
      output[i]? = some entry := by
  obtain ⟨⟨shape, hs⟩, rfl⟩ := dequantize_eq_ok_iff.mp ho
  obtain ⟨hf, hall, -⟩ := fits_of_accept_eq_ok hs
  have hrow : (indices.repeatRows times).rows[i]? =
      some (indices.rowAt a.groupSize.toNat i) := by
    have htimes : 0 < times := hsize ▸ hf.usable.groupSize_pos
    rw [Indices.repeatRows, getElem?_repeatEach htimes, ← hsize, Indices.rowAt,
      Array.getD_eq_getD_getElem?, Array.getElem?_eq_getElem (hf.div_groupSize_lt hi),
      Option.getD_some]
  have hcol : indices.cols[i]? = some (indices.colAt i) := by
    rw [Indices.colAt, Array.getD_eq_getD_getElem?, Array.getElem?_eq_getElem hi, Option.getD_some]
  exact ⟨_, _, _, hrow, hcol, getElem?_addressAt (hall i hi).1.address_lt, by simp [hi]⟩

end Addressing

end IndexedCodebook
