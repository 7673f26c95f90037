import Mathlib.Algebra.Group.Nat.Defs
import IndexedCodebook.Addressing.Positions

/-!
# Which pairs reach an entry

`Addressing.Reaches` compares the indices of a pair with their cardinalities, and the exact address
with the length of the codebook. `resolve?_eq_some_iff` and `resolve?_eq_none_iff` say that this is
what `Addressing.resolve?` decides in 64 bits, overflow included, for a codebook whose own length
has 64 bits, as that of every sequence in memory has. `Indices.rowAt`, `Indices.colAt` and
`Indices.addressAt` are the row, the column and the exact address of a position.
-/

namespace IndexedCodebook

namespace Indices

/-- The row index of a position: that of its group. -/
def rowAt (indices : Indices) (groupSize position : Nat) : UInt64 :=
  indices.rows.getD (position / groupSize) 0

/-- The column index of a position. -/
def colAt (indices : Indices) (position : Nat) : UInt64 := indices.cols.getD position 0

/-- The exact address of a position. -/
def addressAt (indices : Indices) (groupSize : Nat) (stride : UInt64) (position : Nat) : Nat :=
  (indices.rowAt groupSize position).toNat * stride.toNat + (indices.colAt position).toNat

end Indices

namespace Addressing

/-- Both indices are below their cardinalities, and the exact address is below the length of the
codebook. -/
structure Reaches (a : Addressing) (entries : Nat) (row col : UInt64) : Prop where
  col_lt : col.toNat < a.colCardinality.toNat
  row_lt : ∀ rows ∈ a.rowCardinality, row.toNat < rows.toNat
  address_lt : row.toNat * a.colCardinality.toNat + col.toNat < entries

/-- The index pair of a position reaches an entry. -/
def ReachesAt (a : Addressing) (indices : Indices) (entries position : Nat) : Prop :=
  a.Reaches entries (indices.rowAt a.groupSize.toNat position) (indices.colAt position)

/-- The exact address of a position. -/
def addressAt (a : Addressing) (indices : Indices) (position : Nat) : Nat :=
  indices.addressAt a.groupSize.toNat a.colCardinality position

private theorem any_le_eq_false_iff (rows : Option UInt64) (row : UInt64) :
    rows.any (· ≤ row) = false ↔ ∀ r ∈ rows, row.toNat < r.toNat := by
  cases rows with
  | none => simp
  | some r => simp [UInt64.lt_iff_toNat_lt]

/-- A pair resolves to an address exactly if it reaches an entry and that is its exact address. -/
theorem resolve?_eq_some_iff {a : Addressing} {entries : Nat} {row col address : UInt64} :
    a.resolve? entries row col = some address ↔
      a.Reaches entries row col ∧
        address.toNat = row.toNat * a.colCardinality.toNat + col.toNat := by
  unfold resolve?
  constructor
  · intro h
    split at h
    · cases h
    · next hc =>
      split at h
      · cases h
      · next hr =>
        rw [Option.filter_eq_some_iff, address?_eq_some_iff, decide_eq_true_eq] at h
        obtain ⟨he, hlt⟩ := h
        rw [UInt64.le_iff_toNat_le] at hc
        rw [Bool.not_eq_true, any_le_eq_false_iff] at hr
        exact ⟨⟨by omega, hr, by omega⟩, he⟩
  · rintro ⟨h, he⟩
    have hc : ¬ a.colCardinality ≤ col := by
      rw [UInt64.le_iff_toNat_le]
      exact Nat.not_le_of_lt h.col_lt
    have hr : ¬ a.rowCardinality.any (· ≤ row) = true := by
      rw [Bool.not_eq_true, any_le_eq_false_iff]
      exact h.row_lt
    rw [if_neg hc, if_neg hr, Option.filter_eq_some_iff, address?_eq_some_iff, decide_eq_true_eq]
    exact ⟨he, he ▸ h.address_lt⟩

/-- A pair that reaches an entry of a codebook with a 64-bit length resolves to its address. -/
theorem resolve?_of_reaches {a : Addressing} {entries : Nat} {row col : UInt64}
    (hsize : entries < 2 ^ 64) (h : a.Reaches entries row col) :
    a.resolve? entries row col =
      some (UInt64.ofNat (row.toNat * a.colCardinality.toNat + col.toNat)) := by
  have hlt := h.address_lt
  refine resolve?_eq_some_iff.mpr ⟨h, ?_⟩
  rw [UInt64.toNat_ofNat', Nat.mod_eq_of_lt (by omega)]

/-- Indices below their cardinalities resolve to their exact address, if that lies in the codebook
and has 64 bits. -/
theorem resolve?_ofNat {a : Addressing} {entries row col : Nat}
    (hcol : col < a.colCardinality.toNat) (hrow : ∀ rows ∈ a.rowCardinality, row < rows.toNat)
    (hlt : row * a.colCardinality.toNat + col < entries)
    (h64 : row * a.colCardinality.toNat + col < 2 ^ 64) :
    a.resolve? entries (.ofNat row) (.ofNat col) =
      some (.ofNat (row * a.colCardinality.toNat + col)) := by
  have hstride := a.colCardinality.toNat_lt
  have hle := Nat.le_mul_of_pos_right row (Nat.zero_lt_of_lt hcol)
  have hr : (UInt64.ofNat row).toNat = row := by
    rw [UInt64.toNat_ofNat', Nat.mod_eq_of_lt (by omega)]
  have hc : (UInt64.ofNat col).toNat = col := by
    rw [UInt64.toNat_ofNat', Nat.mod_eq_of_lt (by omega)]
  rw [resolve?_eq_some_iff, UInt64.toNat_ofNat', Nat.mod_eq_of_lt h64, hr, hc]
  refine ⟨⟨?_, ?_, ?_⟩, rfl⟩
  · rw [hc]
    exact hcol
  · rw [hr]
    exact hrow
  · rw [hr, hc]
    exact hlt

/-- In a codebook with a 64-bit length a pair does not resolve exactly if it reaches no entry. -/
theorem resolve?_eq_none_iff {a : Addressing} {entries : Nat} {row col : UInt64}
    (hsize : entries < 2 ^ 64) :
    a.resolve? entries row col = none ↔ ¬ a.Reaches entries row col := by
  constructor
  · intro h hr
    rw [resolve?_of_reaches hsize hr] at h
    cases h
  · intro h
    refine Option.eq_none_iff_forall_ne_some.mpr fun address ha ↦ ?_
    exact h (resolve?_eq_some_iff.mp ha).1

instance (a : Addressing) (entries : Nat) (row col : UInt64) :
    Decidable (a.Reaches entries row col) :=
  decidable_of_iff
    (col.toNat < a.colCardinality.toNat ∧ a.rowCardinality.any (· ≤ row) = false ∧
      row.toNat * a.colCardinality.toNat + col.toNat < entries)
    ⟨fun ⟨hc, hr, ha⟩ ↦ ⟨hc, (any_le_eq_false_iff _ _).mp hr, ha⟩,
      fun ⟨hc, hr, ha⟩ ↦ ⟨hc, (any_le_eq_false_iff _ _).mpr hr, ha⟩⟩

instance (a : Addressing) (indices : Indices) (entries position : Nat) :
    Decidable (a.ReachesAt indices entries position) :=
  inferInstanceAs (Decidable (a.Reaches entries _ _))

end Addressing

end IndexedCodebook
