import IndexedCodebook.Proofs.Dequantize

/-!
# Dequantizing in pieces

Two index pairs whose lengths fit can be put one after the other (`Indices.append`): the groups of
the whole are those of the first part and then those of the second, so every position reaches what
it reaches in its part (`faultAt_append_left` and `faultAt_append_right`). So the whole gives the
outputs of the parts one after the other, or the first fault of the parts, with its position in the
whole (`result_dequantize_append`).
-/

namespace IndexedCodebook

open Outcome

/-- The rows and the columns of two index pairs, one after the other. -/
def Indices.append (first second : Indices) : Indices :=
  ⟨first.rows ++ second.rows, first.cols ++ second.cols⟩

/-- The fault of a position that comes `n` positions later. -/
def AddressFault.shift (n : Nat) (fault : AddressFault) : AddressFault :=
  { fault with position := fault.position + n }

/-- A fault of a part that comes after `n` positions: only an address has a position. -/
def Fault.shift (n : Nat) : Fault → Fault
  | address cause => .address (cause.shift n)
  | other => other

namespace Addressing

variable {a : Addressing} {first second : Indices} {codebook : Array Single} {entries i : Nat}

private theorem Fits.add_div_groupSize {rows columns : Nat} (h : a.Fits rows columns entries)
    (i : Nat) :
    (columns + i) / a.groupSize.toNat = rows + i / a.groupSize.toNat := by
  rw [← h.rows_mul_groupSize, Nat.add_comm, Nat.add_mul_div_right _ _ h.usable.groupSize_pos,
    Nat.add_comm]

/-- Two parts whose lengths fit make a whole whose lengths fit. -/
theorem Fits.append (h₁ : a.Fits first.rows.size first.cols.size entries)
    (h₂ : a.Fits second.rows.size second.cols.size entries) :
    a.Fits (first.append second).rows.size (first.append second).cols.size entries := by
  simp only [Indices.append, Array.size_append]
  refine ⟨h₁.usable, Nat.add_pos_left h₁.columns_pos _,
    Nat.dvd_add h₁.groupSize_dvd h₂.groupSize_dvd, ?_, h₁.entries_pos⟩
  rw [h₁.add_div_groupSize, ← h₂.rows_eq]

section Positions

/-- A position of the first part has its row in the first part. -/
theorem rowAt_append_left (h : a.Fits first.rows.size first.cols.size entries)
    (hi : i < first.cols.size) :
    (first.append second).rowAt a.groupSize.toNat i = first.rowAt a.groupSize.toNat i := by
  have hlt := h.div_groupSize_lt hi
  simp [Indices.rowAt, Indices.append, Array.getElem?_append, hlt]

/-- A position of the second part has its row in the second part. -/
theorem rowAt_append_right (h : a.Fits first.rows.size first.cols.size entries) :
    (first.append second).rowAt a.groupSize.toNat (first.cols.size + i) =
      second.rowAt a.groupSize.toNat i := by
  simp [Indices.rowAt, Indices.append, h.add_div_groupSize, Array.getElem?_append_right]

/-- A position of the first part has its column in the first part. -/
theorem colAt_append_left (hi : i < first.cols.size) :
    (first.append second).colAt i = first.colAt i := by
  simp [Indices.colAt, Indices.append, Array.getElem?_append, hi]

/-- A position of the second part has its column in the second part. -/
theorem colAt_append_right :
    (first.append second).colAt (first.cols.size + i) = second.colAt i := by
  simp [Indices.colAt, Indices.append, Array.getElem?_append_right]

/-- A position of the first part has its address in the first part. -/
theorem addressAt_append_left (h : a.Fits first.rows.size first.cols.size entries)
    (hi : i < first.cols.size) :
    a.addressAt (first.append second) i = a.addressAt first i := by
  simp only [addressAt, Indices.addressAt, rowAt_append_left h hi, colAt_append_left hi]

/-- A position of the second part has its address in the second part. -/
theorem addressAt_append_right (h : a.Fits first.rows.size first.cols.size entries) :
    a.addressAt (first.append second) (first.cols.size + i) = a.addressAt second i := by
  simp only [addressAt, Indices.addressAt, rowAt_append_right h, colAt_append_right]

private theorem faultAt_append_left (h₁ : a.Fits first.rows.size first.cols.size entries)
    (h₂ : a.Fits second.rows.size second.cols.size entries) (hi : i < first.cols.size) :
    a.faultAt (first.append second) entries i = a.faultAt first entries i := by
  have hwhole : i < (first.append second).cols.size := by
    simp only [Indices.append, Array.size_append]
    omega
  rw [faultAt_eq (h₁.append h₂) hwhole, faultAt_eq h₁ hi, rowAt_append_left h₁ hi,
    colAt_append_left hi, addressFault, addressFault, rowAt_append_left h₁ hi,
    colAt_append_left hi, addressAt_append_left h₁ hi]

private theorem faultAt_append_right (h₁ : a.Fits first.rows.size first.cols.size entries)
    (h₂ : a.Fits second.rows.size second.cols.size entries) (hi : i < second.cols.size) :
    a.faultAt (first.append second) entries (first.cols.size + i) =
      (a.faultAt second entries i).map (Fault.shift first.cols.size) := by
  have hwhole : first.cols.size + i < (first.append second).cols.size := by
    simp only [Indices.append, Array.size_append]
    omega
  rw [faultAt_eq (h₁.append h₂) hwhole, faultAt_eq h₂ hi, rowAt_append_right h₁,
    colAt_append_right, addressFault, addressFault, rowAt_append_right h₁, colAt_append_right,
    addressAt_append_right h₁]
  split
  · rfl
  · rw [Option.map_some, Fault.shift, AddressFault.shift, Nat.add_comm]

end Positions

private theorem range_size_append (first second : Indices) :
    List.range (first.append second).cols.size =
      List.range first.cols.size ++
        (List.range second.cols.size).map (first.cols.size + ·) := by
  rw [Indices.append, Array.size_append, List.range_add]

private theorem checkPositions_append (h₁ : a.Fits first.rows.size first.cols.size entries)
    (h₂ : a.Fits second.rows.size second.cols.size entries) :
    a.checkPositions (first.append second) entries =
      a.checkPositions first entries >>= fun _ ↦
        (a.checkPositions second entries).mapError (Fault.shift first.cols.size) := by
  have hleft : (List.range first.cols.size).findSome? (a.faultAt (first.append second) entries) =
      (List.range first.cols.size).findSome? (a.faultAt first entries) := by
    apply findSome?_congr
    intro i hi
    exact faultAt_append_left h₁ h₂ (List.mem_range.mp hi)
  have hright : ((List.range second.cols.size).map (first.cols.size + ·)).findSome?
      (a.faultAt (first.append second) entries) =
        ((List.range second.cols.size).findSome? (a.faultAt second entries)).map
          (Fault.shift first.cols.size) := by
    rw [List.findSome?_map, List.map_findSome?]
    apply findSome?_congr
    intro i hi
    exact faultAt_append_right h₁ h₂ (List.mem_range.mp hi)
  simp only [checkPositions, range_size_append, List.findSome?_append, hleft, hright]
  cases (List.range first.cols.size).findSome? (a.faultAt first entries) with
  | some fault => rfl
  | none =>
    cases (List.range second.cols.size).findSome? (a.faultAt second entries) with
    | some fault => rfl
    | none => rfl

/-- With lengths that fit, only a position can make a dequantization fail. -/
theorem result_dequantize_of_fits {indices : Indices}
    (h : a.Fits indices.rows.size indices.cols.size codebook.size) :
    (a.dequantize indices codebook).result =
      a.checkPositions indices codebook.size >>= fun _ ↦
        .ok ((Array.range indices.cols.size).map (a.entryAt indices codebook)) := by
  rw [dequantize_eq, Traced.result_bind, result_begin, result_accept,
    checkLengths_eq_ok_iff.mpr ⟨h, rfl⟩, ok_bind]
  cases a.checkPositions indices codebook.size with
  | error fault => rfl
  | ok => rfl

private theorem entries_append (h : a.Fits first.rows.size first.cols.size codebook.size) :
    (Array.range (first.append second).cols.size).map (a.entryAt (first.append second) codebook) =
      (Array.range first.cols.size).map (a.entryAt first codebook) ++
        (Array.range second.cols.size).map (a.entryAt second codebook) := by
  apply Array.toList_inj.mp
  simp only [Array.toList_append, Array.toList_map, Array.toList_range, range_size_append,
    List.map_append, List.map_map]
  congr 1
  · apply List.map_congr_left
    intro i hi
    rw [entryAt, entryAt, addressAt_append_left h (List.mem_range.mp hi)]
  · apply List.map_congr_left
    intro i _
    rw [Function.comp_apply, entryAt, entryAt, addressAt_append_right h]

/-- Dequantizing the whole dequantizes the first part, then the second, and puts the outputs one
after the other. -/
theorem result_dequantize_append (h₁ : a.Fits first.rows.size first.cols.size codebook.size)
    (h₂ : a.Fits second.rows.size second.cols.size codebook.size) :
    (a.dequantize (first.append second) codebook).result =
      (a.dequantize first codebook).result >>= fun output₁ ↦
        (a.dequantize second codebook).result.mapError (Fault.shift first.cols.size) >>=
          fun output₂ ↦ .ok (output₁ ++ output₂) := by
  rw [result_dequantize_of_fits (h₁.append h₂), result_dequantize_of_fits h₁,
    result_dequantize_of_fits h₂, checkPositions_append h₁ h₂, entries_append h₁]
  cases a.checkPositions first codebook.size with
  | error fault => rfl
  | ok =>
    cases a.checkPositions second codebook.size with
    | error fault => rfl
    | ok => rfl

/-- With lengths that fit, a dequantization fails for an address only. -/
theorem dequantize_eq_error_address {indices : Indices} {fault : Fault}
    (h : a.Fits indices.rows.size indices.cols.size codebook.size)
    (he : (a.dequantize indices codebook).result = .error fault) :
    ∃ cause, fault = .address cause := by
  simp only [dequantize_eq, Traced.result_bind, result_begin, Traced.result_ofResult,
    bind_ok_eq_error_iff] at he
  obtain ⟨p, -, hp, -⟩ := faultAt_of_accept_eq_error h he
  exact ⟨_, hp⟩

end Addressing

end IndexedCodebook
