import IndexedCodebook.Proofs.Validation.Comparison

/-!
# No stray reads

The operations that check their inputs never read outside a sequence and never divide by zero: none
ends in `Fault.stray`, whatever its inputs, a validation if room for its samples can be reserved
(`checked_operations_never_stray`). A gather checks nothing itself and relies on `Indices.Ready`;
whenever one is started, that holds, so its unchecked 64-bit addresses are the exact ones.
-/

namespace IndexedCodebook

open Outcome Validation

/-- What a gather relies on: the group size is positive, the rows have whole groups of columns, and
at every position of a group the 64-bit address is the exact one and lies in the codebook. -/
structure Indices.Ready (indices : Indices) (groupSize : Nat) (stride : UInt64) (entries : Nat) :
    Prop where
  groupSize_pos : 0 < groupSize
  rows_mul_groupSize : indices.rows.size * groupSize = indices.cols.size
  address_exact : ∀ group < indices.rows.size,
    ∀ position ∈ groupPositions groupSize indices.cols.size group,
      ∃ row col, indices.rows[group]? = some row ∧ indices.cols[position]? = some col ∧
        (row * stride).toNat = row.toNat * stride.toNat ∧
        (row * stride + col).toNat = row.toNat * stride.toNat + col.toNat ∧
        row.toNat * stride.toNat + col.toNat < entries

namespace Addressing

variable {a : Addressing} {indices : Indices} {entries : Nat}

private theorem ready_of_accept {shape : Shape}
    (h : (a.accept indices entries).result = .ok shape) :
    indices.Ready a.groupSize.toNat a.colCardinality entries := by
  obtain ⟨hf, hall, -⟩ := fits_of_accept_eq_ok h
  have hg := hf.usable.groupSize_pos
  refine ⟨hg, hf.rows_mul_groupSize, ?_⟩
  intro group hgroup position hp
  obtain ⟨rfl, hlt⟩ := (Indices.mem_groupPositions_iff hg).mp hp
  obtain ⟨hreach, h64⟩ := hall position hlt
  have hentries := hreach.address_lt
  have hwrapped := Indices.toNat_wrappedAt h64
  unfold addressAt Indices.addressAt at h64
  rw [Indices.wrappedAt, Indices.addressAt] at hwrapped
  refine ⟨indices.rowAt a.groupSize.toNat position, indices.colAt position, ?_, ?_, ?_, hwrapped,
    hentries⟩
  · simp [Indices.rowAt, hgroup]
  · simp [Indices.colAt, hlt]
  · -- the product is below the exact address, so it does not wrap either
    rw [UInt64.toNat_mul, Nat.mod_eq_of_lt (by omega)]

/-- Steps that are not stray are not stray one after the other. -/
theorem bind_ne_stray {α β : Type} {x : Except Fault α} {f : α → Except Fault β}
    (hx : x ≠ .error .stray) (hf : ∀ y, f y ≠ .error .stray) : x >>= f ≠ .error .stray := by
  intro h
  rcases bind_eq_error_iff.mp h with h | ⟨y, -, h⟩
  · exact hx h
  · exact hf y h

/-- Checking the number of scales reads nothing. -/
theorem checkScales_ne_stray (scales groups : Nat) : checkScales scales groups ≠ .error .stray := by
  unfold checkScales
  split
  · intro h
    cases h
  · intro h
    cases h

/-- Checking the length of an output makes no stray division. -/
theorem checkOutput_ne_stray (a : Addressing) (indices : Indices) (entries output : Nat) :
    (checkOutput a indices entries output).result ≠ .error .stray := by
  rw [checkOutput, Traced.result_bind, shapeOf, Traced.result_bind]
  refine bind_ne_stray (bind_ne_stray (checkLengths_ne_stray a _ _ _) fun _ h ↦ by cases h) ?_
  intro shape
  split
  · intro h
    cases h
  · intro h
    cases h

/-- No checked operation makes a stray read or division, and none reserves too much room if a
sequence can hold all samples that a report may. Whenever the lengths pass, the rows have
whole groups of columns, and whenever a gather is started its inputs are ready: its output is as
long as the columns, there is a scale for every row if it takes scales, and its unchecked addresses
are exact. -/
theorem checked_operations_never_stray {f : Format} (a : Addressing) (indices : Indices)
    (codebook scales : Array Single) (settings : Settings) (output : Array (Word f)) :
    (∀ entries, (a.accept indices entries).result ≠ .error .stray) ∧
    (a.dequantize indices codebook).result ≠ .error .stray ∧
    (a.dequantizeWithScales indices codebook scales).result ≠ .error .stray ∧
    (a.dequantizeBFloat indices codebook).result ≠ .error .stray ∧
    (settings.Reservable →
      (a.validate indices codebook settings output).result ≠ .error .stray ∧
      (a.validateWithScales indices codebook scales settings output).result ≠ .error .stray) ∧
    (∀ entries shape,
      (a.shapeOf indices.rows.size indices.cols.size entries).result = .ok shape →
        0 < a.groupSize.toNat ∧ indices.rows.size * a.groupSize.toNat = indices.cols.size) ∧
    ∀ shape, (a.begin indices codebook.size).result = .ok shape →
      indices.Ready a.groupSize.toNat a.colCardinality codebook.size ∧
      shape.elements = indices.cols.size ∧
      (checkScales scales.size shape.groups = .ok () → scales.size = indices.rows.size) := by
  have hbegin : (a.begin indices codebook.size).result ≠ .error .stray := by
    rw [result_begin]
    exact accept_ne_stray a indices codebook.size
  have hcheck := checkOutput_ne_stray a indices codebook.size output.size
  refine ⟨accept_ne_stray a indices, ?_, ?_, ?_, fun hreserve ↦ ⟨?_, ?_⟩, ?_, ?_⟩
  · rw [dequantize_eq, Traced.result_bind]
    exact bind_ne_stray hbegin fun _ h ↦ by cases h
  · rw [dequantizeWithScales_eq, Traced.result_bind]
    refine bind_ne_stray hbegin fun shape ↦ ?_
    rw [Traced.result_bind]
    exact bind_ne_stray (checkScales_ne_stray _ _) fun _ h ↦ by cases h
  · rw [dequantizeBFloat_eq, Traced.result_bind]
    exact bind_ne_stray hbegin fun _ h ↦ by cases h
  · rw [result_validate, Settings.reserve_eq_ok hreserve]
    exact bind_ne_stray hcheck fun _ h ↦ by cases h
  · rw [result_validateWithScales, Settings.reserve_eq_ok hreserve]
    exact bind_ne_stray (bind_ne_stray hcheck (checkScales_ne_stray _)) fun _ h ↦ by cases h
  · intro entries shape h
    have hf := fits_of_shapeOf_eq_ok h
    exact ⟨hf.usable.groupSize_pos, hf.rows_mul_groupSize⟩
  · intro shape h
    rw [result_begin] at h
    obtain ⟨hf, -, rfl⟩ := fits_of_accept_eq_ok h
    refine ⟨ready_of_accept h, rfl, fun hs ↦ ?_⟩
    rw [checkScales_eq_ok_iff.mp hs, hf.rows_eq]

/-- Addresses beyond 64 bits, a codebook without entries and the largest limit on samples for which
room can be reserved. -/
theorem checked_operations_never_stray_largest_limit :
    ((unbounded 1 2).validate ⟨#[0xffffffffffffffff], #[1]⟩ #[.ofBits 0]
        { maxReported := 192153584101141162 } (#[.ofBits 0] : Array Single)).result ≠
      .error .stray ∧
    ((unbounded 1 2).validateWithScales ⟨#[0xffffffffffffffff], #[1]⟩ #[] #[]
        { maxReported := 192153584101141162 } (#[.ofBits 0] : Array Single)).result ≠
      .error .stray := by
  have hreserve : ({ maxReported := 192153584101141162 } : Settings).Reservable := by decide
  obtain ⟨-, -, -, -, hvalidate, -⟩ := checked_operations_never_stray (unbounded 1 2)
    ⟨#[0xffffffffffffffff], #[1]⟩ #[.ofBits 0] #[] { maxReported := 192153584101141162 }
    (#[.ofBits 0] : Array Single)
  obtain ⟨-, -, -, -, hempty, -⟩ := checked_operations_never_stray (unbounded 1 2)
    ⟨#[0xffffffffffffffff], #[1]⟩ #[] #[] { maxReported := 192153584101141162 }
    (#[.ofBits 0] : Array Single)
  exact ⟨(hvalidate hreserve).1, (hempty hreserve).2⟩

end Addressing

end IndexedCodebook
