import Mathlib.Algebra.Group.Nat.Defs
import IndexedCodebook.Addressing.Basic
import IndexedCodebook.Proofs.Outcome

/-!
# Which lengths fit together

`Addressing.Usable` and `Addressing.Fits` say over natural numbers what `Addressing.check` and
`Addressing.checkLengths` decide in 64 bits: `check_eq_ok_iff` and `checkLengths_eq_ok_iff`. Lengths
that fit give every position a group that has a row, and lengths that do not are refused without
a stray division (`checkLengths_ne_stray`).
-/

namespace IndexedCodebook.Addressing

open Outcome

/-- The numbers are positive, and the address space has at most `2 ^ 64 - 1` entries. -/
structure Usable (a : Addressing) : Prop where
  groupSize_pos : 0 < a.groupSize.toNat
  colCardinality_pos : 0 < a.colCardinality.toNat
  rowCardinality_pos : ∀ rows ∈ a.rowCardinality, 0 < rows.toNat
  space_le : ∀ rows ∈ a.rowCardinality, rows.toNat * a.colCardinality.toNat ≤ 2 ^ 64 - 1

/-- The columns are a positive number of whole groups, there is one row per group, and the codebook
is not empty. -/
structure Fits (a : Addressing) (rows columns entries : Nat) : Prop where
  usable : a.Usable
  columns_pos : 0 < columns
  groupSize_dvd : a.groupSize.toNat ∣ columns
  rows_eq : rows = columns / a.groupSize.toNat
  entries_pos : 0 < entries

private theorem toNat_pos_iff (x : UInt64) : 0 < x.toNat ↔ x ≠ 0 := by
  rw [Nat.pos_iff_ne_zero, ne_eq, ne_eq, ← UInt64.toNat_inj, UInt64.toNat_zero]

private theorem isNone_checkedMul (x y : UInt64) :
    (checkedMul x y).isNone = true ↔ ¬ x.toNat * y.toNat ≤ 2 ^ 64 - 1 := by
  unfold checkedMul
  split
  · next h => simp; omega
  · next h => simp; omega

private theorem checkRows_eq_ok_iff (a : Addressing) :
    a.checkRows = .ok () ↔
      (∀ rows ∈ a.rowCardinality, 0 < rows.toNat) ∧
        ∀ rows ∈ a.rowCardinality, rows.toNat * a.colCardinality.toNat ≤ 2 ^ 64 - 1 := by
  unfold checkRows
  cases a.rowCardinality with
  | none => simp
  | some rows =>
    simp only [Option.mem_def, Option.some.injEq, forall_eq']
    split
    · next h => simp [h]
    · next h =>
      have hpos : 0 < rows.toNat := (toNat_pos_iff rows).mpr h
      split
      · next hn =>
        rw [isNone_checkedMul] at hn
        refine ⟨fun hc ↦ ?_, fun hle ↦ absurd hle.2 hn⟩
        cases hc
      · next hn =>
        rw [isNone_checkedMul, Decidable.not_not] at hn
        exact ⟨fun _ ↦ ⟨hpos, hn⟩, fun _ ↦ rfl⟩

/-- An addressing passes its check exactly if it is usable. -/
theorem check_eq_ok_iff (a : Addressing) : a.check = .ok () ↔ a.Usable := by
  unfold check
  split
  · next h =>
    refine ⟨fun hc ↦ by simp at hc, fun hu ↦ ?_⟩
    exact absurd h ((toNat_pos_iff _).mp hu.groupSize_pos)
  · next hg =>
    split
    · next h =>
      refine ⟨fun hc ↦ by simp at hc, fun hu ↦ ?_⟩
      exact absurd h ((toNat_pos_iff _).mp hu.colCardinality_pos)
    · next hc =>
      rw [checkRows_eq_ok_iff]
      constructor
      · rintro ⟨hpos, hle⟩
        exact ⟨(toNat_pos_iff _).mpr hg, (toNat_pos_iff _).mpr hc, hpos, hle⟩
      · intro hu
        exact ⟨hu.rowCardinality_pos, hu.space_le⟩

instance (a : Addressing) : Decidable a.Usable := decidable_of_iff _ a.check_eq_ok_iff

private theorem checkRows_eq_error {a : Addressing} {fault : Fault}
    (h : a.checkRows = .error fault) : ∃ name cause, fault = .argument name cause := by
  unfold checkRows at h
  split at h
  · cases h
  · split at h
    · cases h
      exact ⟨_, _, rfl⟩
    · split at h
      · cases h
        exact ⟨_, _, rfl⟩
      · cases h

/-- A check that fails names the argument it refuses. -/
theorem check_eq_error {a : Addressing} {fault : Fault} (h : a.check = .error fault) :
    ∃ name cause, fault = .argument name cause := by
  unfold check at h
  split at h
  · cases h
    exact ⟨_, _, rfl⟩
  · split at h
    · cases h
      exact ⟨_, _, rfl⟩
    · exact checkRows_eq_error h

private theorem checkLengths_of_usable {a : Addressing} (h : a.Usable)
    (rows columns entries : Nat) :
    a.checkLengths rows columns entries =
      if columns = 0 ∨ columns % a.groupSize.toNat ≠ 0 then
        .error (.shape (.brokenGroup columns a.groupSize.toNat))
      else if rows ≠ columns / a.groupSize.toNat then
        .error (.shape (.rowCount rows (columns / a.groupSize.toNat) a.groupSize.toNat columns))
      else if entries = 0 then .error (.shape .emptyCodebook)
      else .ok ⟨columns, columns / a.groupSize.toNat, entries⟩ := by
  have hg : a.groupSize.toNat ≠ 0 := Nat.pos_iff_ne_zero.mp h.groupSize_pos
  simp only [checkLengths, (check_eq_ok_iff a).mpr h, divide, hg, ite_false, ok_bind]

/-- Lengths pass their check exactly if they fit. -/
theorem checkLengths_eq_ok_iff {a : Addressing} {rows columns entries : Nat} {shape : Shape} :
    a.checkLengths rows columns entries = .ok shape ↔
      a.Fits rows columns entries ∧ shape = ⟨columns, columns / a.groupSize.toNat, entries⟩ := by
  constructor
  · intro h
    have hc : a.check = .ok () := by
      obtain ⟨⟨⟩, hc, -⟩ := bind_eq_ok_iff.mp h
      exact hc
    have hu := (check_eq_ok_iff a).mp hc
    rw [checkLengths_of_usable hu] at h
    split at h
    · cases h
    · next hcol =>
      split at h
      · cases h
      · next hrow =>
        split at h
        · cases h
        · next hent =>
          cases h
          rw [not_or, Decidable.not_not] at hcol
          refine ⟨⟨hu, by omega, Nat.dvd_of_mod_eq_zero hcol.2, by omega, by omega⟩, rfl⟩
  · rintro ⟨hf, rfl⟩
    have hpos := hf.columns_pos
    have hmod := Nat.mod_eq_zero_of_dvd hf.groupSize_dvd
    have hent := hf.entries_pos
    rw [checkLengths_of_usable hf.usable, if_neg (by omega), if_neg (by simp [hf.rows_eq]),
      if_neg (by omega)]

instance (a : Addressing) (rows columns entries : Nat) : Decidable (a.Fits rows columns entries) :=
  decidable_of_iff _ (checkLengths_eq_ok_iff.trans (and_iff_left rfl))

/-- The note on the size of a codebook does not change the outcome of checking the lengths. -/
theorem result_shapeOf (a : Addressing) (rows columns entries : Nat) :
    (a.shapeOf rows columns entries).result = a.checkLengths rows columns entries := by
  rw [shapeOf, Traced.result_bind, Traced.result_ofResult]
  cases a.checkLengths rows columns entries with
  | error fault => rfl
  | ok shape => rfl

/-- Lengths give a shape exactly if they fit. -/
theorem shapeOf_eq_ok_iff {a : Addressing} {rows columns entries : Nat} {shape : Shape} :
    (a.shapeOf rows columns entries).result = .ok shape ↔
      a.Fits rows columns entries ∧ shape = ⟨columns, columns / a.groupSize.toNat, entries⟩ := by
  rw [result_shapeOf, checkLengths_eq_ok_iff]

/-- Lengths that give a shape fit. -/
theorem fits_of_shapeOf_eq_ok {a : Addressing} {rows columns entries : Nat} {shape : Shape}
    (h : (a.shapeOf rows columns entries).result = .ok shape) : a.Fits rows columns entries :=
  (shapeOf_eq_ok_iff.mp h).1

/-- Lengths that fit give their shape, with the note on the size of the codebook. -/
theorem shapeOf_eq {a : Addressing} {rows columns entries : Nat} (h : a.Fits rows columns entries) :
    a.shapeOf rows columns entries =
      ⟨.ok ⟨columns, columns / a.groupSize.toNat, entries⟩, a.sizeEvents entries⟩ := by
  rw [shapeOf, checkLengths_eq_ok_iff.mpr ⟨h, rfl⟩, Traced.bind_of_ok _ (Traced.result_ofResult _),
    Traced.bind_of_ok _ (Traced.result_emitAll _)]
  simp [Traced.ofResult, Traced.emitAll, Pure.pure]

private theorem checkLengths_eq_error {a : Addressing} {rows columns entries : Nat} {fault : Fault}
    (h : a.checkLengths rows columns entries = .error fault) :
    (∃ name cause, fault = .argument name cause) ∨ ∃ cause, fault = .shape cause := by
  cases hc : a.check with
  | error fault' =>
    rw [checkLengths, hc, error_bind] at h
    cases h
    exact .inl (check_eq_error hc)
  | ok =>
    rw [checkLengths_of_usable ((check_eq_ok_iff a).mp hc)] at h
    split at h
    · cases h
      exact .inr ⟨_, rfl⟩
    · split at h
      · cases h
        exact .inr ⟨_, rfl⟩
      · split at h
        · cases h
          exact .inr ⟨_, rfl⟩
        · cases h

/-- Checking the lengths does not count scales. -/
theorem checkLengths_ne_scaleCount (a : Addressing) (rows columns entries scales groups : Nat) :
    a.checkLengths rows columns entries ≠ .error (.shape (.scaleCount scales groups)) := by
  intro h
  cases hc : a.check with
  | error fault =>
    rw [checkLengths, hc, error_bind] at h
    cases h
    obtain ⟨name, cause, hf⟩ := check_eq_error hc
    cases hf
  | ok =>
    rw [checkLengths_of_usable ((check_eq_ok_iff a).mp hc)] at h
    split at h
    · cases h
    · split at h
      · cases h
      · split at h
        · cases h
        · cases h

/-- Checking the lengths makes no stray division. -/
theorem checkLengths_ne_stray (a : Addressing) (rows columns entries : Nat) :
    a.checkLengths rows columns entries ≠ .error .stray := by
  intro h
  rcases checkLengths_eq_error h with ⟨name, cause, hf⟩ | ⟨cause, hf⟩
  · cases hf
  · cases hf

namespace Fits

variable {a : Addressing} {rows columns entries : Nat}

/-- The groups of the rows are the columns. -/
theorem rows_mul_groupSize (h : a.Fits rows columns entries) :
    rows * a.groupSize.toNat = columns := by
  rw [h.rows_eq, Nat.div_mul_cancel h.groupSize_dvd]

/-- The group of a position has a row. -/
theorem div_groupSize_lt (h : a.Fits rows columns entries) {position : Nat}
    (hp : position < columns) : position / a.groupSize.toNat < rows := by
  rw [Nat.div_lt_iff_lt_mul h.usable.groupSize_pos, h.rows_mul_groupSize]
  exact hp

end Fits

end IndexedCodebook.Addressing
