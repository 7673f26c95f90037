import IndexedCodebook.Proofs.Addressing.Lengths
import IndexedCodebook.Proofs.Addressing.Reach

/-!
# Accepted inputs

Inputs are accepted exactly if their lengths fit and every position reaches an entry
(`fits_of_accept_eq_ok` and `accept_eq_ok`). If the lengths fit and some position does not, the
fault is that of the lowest one (`accept_eq_lowest`), with the exact address where that has 64 bits.
The converses take a codebook whose length has 64 bits, as every sequence in memory has.
-/

namespace IndexedCodebook.Addressing

open Outcome

variable {a : Addressing} {indices : Indices} {entries position : Nat}

/-- The fault of a position as an address fault: its indices and its address, saturated. -/
def addressFault (a : Addressing) (indices : Indices) (entries position : Nat) : AddressFault :=
  { position
    row := indices.rowAt a.groupSize.toNat position
    col := indices.colAt position
    address := .ofNat (min (a.addressAt indices position) (2 ^ 64 - 1))
    entries }

/-- The address of an address fault is the exact one, or the largest 64-bit number beyond that. -/
theorem toNat_addressFault_address (a : Addressing) (indices : Indices) (entries position : Nat) :
    (a.addressFault indices entries position).address.toNat =
      min (a.addressAt indices position) (2 ^ 64 - 1) := by
  rw [addressFault, UInt64.toNat_ofNat', Nat.mod_eq_of_lt]
  omega

/-- With lengths that fit, the pair of a position is the row of its group and its column. -/
theorem pairAt_eq_ok (h : a.Fits indices.rows.size indices.cols.size entries)
    (hp : position < indices.cols.size) :
    a.pairAt indices position =
      .ok (indices.rowAt a.groupSize.toNat position, indices.colAt position) := by
  have hg : a.groupSize ≠ 0 := by
    intro hz
    have := h.usable.groupSize_pos
    simp [hz] at this
  have hr := h.div_groupSize_lt hp
  simp [pairAt, hg, Indices.rowAt, Indices.colAt, hp, hr]

private theorem saturated_address (row col stride : UInt64) :
    (address? row col stride).getD (.ofNat (2 ^ 64 - 1)) =
      .ofNat (min (row.toNat * stride.toNat + col.toNat) (2 ^ 64 - 1)) := by
  rw [address?_eq_ite]
  split
  · rw [Option.getD_some, Nat.min_eq_left (by omega)]
  · rw [Option.getD_none, Nat.min_eq_right (by omega)]

/-- With lengths that fit, a position has a fault exactly if it does not resolve. -/
theorem faultAt_eq (h : a.Fits indices.rows.size indices.cols.size entries)
    (hp : position < indices.cols.size) :
    a.faultAt indices entries position =
      if (a.resolve? entries (indices.rowAt a.groupSize.toNat position)
          (indices.colAt position)).isSome then none
      else some (.address (a.addressFault indices entries position)) := by
  rw [faultAt, pairAt_eq_ok h hp]
  simp only [saturated_address]
  rfl

/-- A position without a fault reaches an entry, and its exact address has 64 bits. -/
theorem reachesAt_of_faultAt_eq_none (h : a.Fits indices.rows.size indices.cols.size entries)
    (hp : position < indices.cols.size) (hf : a.faultAt indices entries position = none) :
    a.ReachesAt indices entries position ∧ a.addressAt indices position < 2 ^ 64 := by
  rw [faultAt_eq h hp] at hf
  split at hf
  · next hs =>
    obtain ⟨address, ha⟩ := Option.isSome_iff_exists.mp hs
    obtain ⟨hr, he⟩ := resolve?_eq_some_iff.mp ha
    refine ⟨hr, ?_⟩
    rw [addressAt, Indices.addressAt, ← he]
    exact address.toNat_lt
  · cases hf

private theorem faultAt_eq_none_iff (h : a.Fits indices.rows.size indices.cols.size entries)
    (hsize : entries < 2 ^ 64) (hp : position < indices.cols.size) :
    a.faultAt indices entries position = none ↔ a.ReachesAt indices entries position := by
  refine ⟨fun hf ↦ (reachesAt_of_faultAt_eq_none h hp hf).1, fun hr ↦ ?_⟩
  rw [faultAt_eq h hp, resolve?_of_reaches hsize hr]
  rfl

/-- The positions pass exactly if none has a fault. -/
theorem checkPositions_eq_ok_iff :
    a.checkPositions indices entries = .ok () ↔
      ∀ i < indices.cols.size, a.faultAt indices entries i = none := by
  unfold checkPositions
  split
  · next hn =>
    rw [List.findSome?_eq_none_iff] at hn
    exact ⟨fun _ i hi ↦ hn i (List.mem_range.mpr hi), fun _ ↦ rfl⟩
  · next fault hs =>
    obtain ⟨p, hp, hf, -⟩ := findSome?_range_eq_some_iff.mp hs
    refine ⟨fun hc ↦ by simp at hc, fun hall ↦ ?_⟩
    rw [hall p hp] at hf
    cases hf

private theorem checkPositions_eq_error {fault : Fault}
    (h : a.checkPositions indices entries = .error fault) :
    ∃ p < indices.cols.size, a.faultAt indices entries p = some fault ∧
      ∀ i < p, a.faultAt indices entries i = none := by
  unfold checkPositions at h
  split at h
  · cases h
  · next fault' hs =>
    cases h
    exact findSome?_range_eq_some_iff.mp hs

/-- The outcome of accepting inputs is that of the lengths, then that of the positions. -/
theorem result_accept (a : Addressing) (indices : Indices) (entries : Nat) :
    (a.accept indices entries).result =
      a.checkLengths indices.rows.size indices.cols.size entries >>= fun shape ↦
        a.checkPositions indices entries >>= fun _ ↦ .ok shape := by
  simp only [accept, shapeOf, Traced.result_bind, Traced.result_ofResult, Traced.result_emitAll,
    Traced.result_pure, bind_assoc, ok_bind]

/-- Accepted inputs have lengths that fit, and all their positions reach an entry by an address of
64 bits. -/
theorem fits_of_accept_eq_ok {shape : Shape} (h : (a.accept indices entries).result = .ok shape) :
    a.Fits indices.rows.size indices.cols.size entries ∧
      (∀ i < indices.cols.size, a.ReachesAt indices entries i ∧ a.addressAt indices i < 2 ^ 64) ∧
      shape = ⟨indices.cols.size, indices.cols.size / a.groupSize.toNat, entries⟩ := by
  rw [result_accept, bind_eq_ok_iff] at h
  obtain ⟨shape', hlengths, hrest⟩ := h
  obtain ⟨⟨⟩, hpositions, hs⟩ := bind_eq_ok_iff.mp hrest
  cases hs
  obtain ⟨hf, he⟩ := checkLengths_eq_ok_iff.mp hlengths
  refine ⟨hf, fun i hi ↦ ?_, he⟩
  exact reachesAt_of_faultAt_eq_none hf hi (checkPositions_eq_ok_iff.mp hpositions i hi)

/-- With a 64-bit codebook length, inputs whose lengths fit and whose positions all reach an entry
are accepted. -/
theorem accept_eq_ok (h : a.Fits indices.rows.size indices.cols.size entries)
    (hsize : entries < 2 ^ 64) (hall : ∀ i < indices.cols.size, a.ReachesAt indices entries i) :
    (a.accept indices entries).result =
      .ok ⟨indices.cols.size, indices.cols.size / a.groupSize.toNat, entries⟩ := by
  have hpositions : a.checkPositions indices entries = .ok () := by
    rw [checkPositions_eq_ok_iff]
    intro i hi
    exact (faultAt_eq_none_iff h hsize hi).mpr (hall i hi)
  rw [result_accept, checkLengths_eq_ok_iff.mpr ⟨h, rfl⟩, ok_bind, hpositions, ok_bind]

/-- Inputs are accepted exactly if their lengths fit and no position has a fault. -/
theorem accept_eq_ok_iff_faultAt :
    (∃ shape, (a.accept indices entries).result = .ok shape) ↔
      a.Fits indices.rows.size indices.cols.size entries ∧
        ∀ i < indices.cols.size, a.faultAt indices entries i = none := by
  rw [result_accept]
  constructor
  · rintro ⟨shape, h⟩
    obtain ⟨shape', hlengths, hrest⟩ := bind_eq_ok_iff.mp h
    obtain ⟨⟨⟩, hpositions, -⟩ := bind_eq_ok_iff.mp hrest
    exact ⟨(checkLengths_eq_ok_iff.mp hlengths).1, checkPositions_eq_ok_iff.mp hpositions⟩
  · rintro ⟨hf, hall⟩
    rw [checkLengths_eq_ok_iff.mpr ⟨hf, rfl⟩, checkPositions_eq_ok_iff.mpr hall]
    exact ⟨_, rfl⟩

/-- If the lengths fit, inputs that are not accepted are refused for the lowest position that has a
fault. -/
theorem faultAt_of_accept_eq_error (h : a.Fits indices.rows.size indices.cols.size entries)
    {fault : Fault} (he : (a.accept indices entries).result = .error fault) :
    ∃ p < indices.cols.size, fault = .address (a.addressFault indices entries p) ∧
      a.faultAt indices entries p ≠ none ∧ ∀ i < p, a.faultAt indices entries i = none := by
  rw [result_accept, checkLengths_eq_ok_iff.mpr ⟨h, rfl⟩, ok_bind, bind_eq_error_iff] at he
  rcases he with he | ⟨-, -, he⟩
  · obtain ⟨p, hp, hf, hlow⟩ := checkPositions_eq_error he
    refine ⟨p, hp, ?_, by simp [hf], hlow⟩
    rw [faultAt_eq h hp] at hf
    split at hf
    · cases hf
    · exact (Option.some.inj hf).symm
  · cases he

/-- If the lengths fit a codebook with a 64-bit length and some position reaches no entry, the
inputs are refused for the lowest such position. -/
theorem accept_eq_lowest (h : a.Fits indices.rows.size indices.cols.size entries)
    (hsize : entries < 2 ^ 64) (hp : position < indices.cols.size)
    (hmiss : ¬ a.ReachesAt indices entries position) :
    ∃ p < indices.cols.size, ¬ a.ReachesAt indices entries p ∧
      (∀ i < p, a.ReachesAt indices entries i) ∧
      (a.accept indices entries).result = .error (.address (a.addressFault indices entries p)) := by
  cases hr : (a.accept indices entries).result with
  | ok shape => exact absurd ((fits_of_accept_eq_ok hr).2.1 position hp).1 hmiss
  | error fault =>
    obtain ⟨p, hlt, rfl, hf, hlow⟩ := faultAt_of_accept_eq_error h hr
    rw [ne_eq, faultAt_eq_none_iff h hsize hlt] at hf
    refine ⟨p, hlt, hf, fun i hi ↦ ?_, rfl⟩
    exact (reachesAt_of_faultAt_eq_none h (by omega) (hlow i hi)).1

/-- Inputs are never refused for the number of scales. -/
theorem accept_ne_scaleCount (a : Addressing) (indices : Indices) (entries scales groups : Nat) :
    (a.accept indices entries).result ≠ .error (.shape (.scaleCount scales groups)) := by
  intro h
  cases hl : a.checkLengths indices.rows.size indices.cols.size entries with
  | error fault =>
    rw [result_accept, hl, error_bind] at h
    cases h
    exact checkLengths_ne_scaleCount a _ _ _ _ _ hl
  | ok shape =>
    have hf := (checkLengths_eq_ok_iff.mp hl).1
    obtain ⟨p, -, hs, -⟩ := faultAt_of_accept_eq_error hf h
    cases hs

/-- Inputs are never refused for a stray read or division. -/
theorem accept_ne_stray (a : Addressing) (indices : Indices) (entries : Nat) :
    (a.accept indices entries).result ≠ .error .stray := by
  intro h
  cases hl : a.checkLengths indices.rows.size indices.cols.size entries with
  | error fault =>
    rw [result_accept, hl, error_bind] at h
    cases h
    exact checkLengths_ne_stray a _ _ _ hl
  | ok shape =>
    have hf := (checkLengths_eq_ok_iff.mp hl).1
    obtain ⟨p, -, hs, -⟩ := faultAt_of_accept_eq_error hf h
    cases hs

end IndexedCodebook.Addressing
