import IndexedCodebook.Proofs.Binary.Exact
import IndexedCodebook.Proofs.Random.Draw
import IndexedCodebook.Proofs.Validation.Rounded
import IndexedCodebook.Synthetic

/-!
# Synthetic inputs close the loop

Inputs can be drawn for exactly the addressings and lengths of `Drawable`, as long as the supply of
random words holds enough fair ones (`Supplies`); then all indices are below their cardinalities
(`Drawn`). Entry `i` of the codebook is the number `i` wherever an index pair can point to, so what
is dequantized are the addresses themselves, as numbers that single precision holds exactly, and a
validation finds nothing (`generated_inputs_close_the_loop`).
-/

namespace IndexedCodebook.Synthetic

open Addressing Outcome IndexedCodebook.Random Validation

variable {a : Addressing} {groups entries : Nat}

/-- Inputs can be drawn: the addressing is usable, there is a group and a row, and the indices below
either cardinality fit in a byte. -/
structure Drawable (a : Addressing) (groups entries : Nat) : Prop where
  usable : a.Usable
  groups_pos : 0 < groups
  cols_le : a.colCardinality.toNat ≤ 256
  rows_pos : 1 ≤ rowCount a entries
  rows_le : rowCount a entries ≤ 256

private theorem checkByte_eq_ok_iff {name : Argument} {cardinality : Nat} :
    checkByte name cardinality = .ok () ↔ cardinality ≤ 256 := by
  unfold checkByte
  split
  · next h => simp [h]
  · next h => simp [Nat.le_of_not_lt h]

private theorem checkByte_eq_error {name : Argument} {cardinality : Nat} {fault : Fault}
    (h : checkByte name cardinality = .error fault) : ∃ cause, fault = .argument name cause := by
  unfold checkByte at h
  split at h
  · cases h
    exact ⟨_, rfl⟩
  · cases h

/-- The check passes exactly if inputs can be drawn. -/
theorem check_eq_ok_iff : check a groups entries = .ok () ↔ Drawable a groups entries := by
  rw [check, bind_eq_ok_iff]
  constructor
  · rintro ⟨⟨⟩, hcheck, h⟩
    split at h
    · cases h
    · next hgroups =>
      split at h
      · cases h
      · next hrows =>
        obtain ⟨⟨⟩, hrow, hcol⟩ := bind_eq_ok_iff.mp h
        exact ⟨(Addressing.check_eq_ok_iff a).mp hcheck, Nat.pos_of_ne_zero hgroups,
          checkByte_eq_ok_iff.mp hcol, Nat.pos_of_ne_zero hrows, checkByte_eq_ok_iff.mp hrow⟩
  · rintro ⟨husable, hgroups, hcols, hrows, hle⟩
    refine ⟨(), (Addressing.check_eq_ok_iff a).mpr husable, ?_⟩
    rw [if_neg (by omega), if_neg (by omega), checkByte_eq_ok_iff.mpr hle, ok_bind,
      checkByte_eq_ok_iff.mpr hcols]

instance : Decidable (Drawable a groups entries) := decidable_of_iff _ check_eq_ok_iff

/-- A check that fails names the argument that it refuses. -/
theorem check_eq_error {fault : Fault} (h : check a groups entries = .error fault) :
    ∃ name cause, fault = .argument name cause := by
  rw [check, bind_eq_error_iff] at h
  rcases h with h | ⟨⟨⟩, -, h⟩
  · exact Addressing.check_eq_error h
  · split at h
    · cases h
      exact ⟨_, _, rfl⟩
    · split at h
      · cases h
        exact ⟨_, _, rfl⟩
      · rcases bind_eq_error_iff.mp h with h | ⟨⟨⟩, -, h⟩
        · exact ⟨_, checkByte_eq_error h⟩
        · exact ⟨_, checkByte_eq_error h⟩

private theorem exists_check_eq_error (h : ¬ Drawable a groups entries) :
    ∃ name cause, check a groups entries = .error (.argument name cause) := by
  cases hc : check a groups entries with
  | error fault =>
    obtain ⟨name, cause, rfl⟩ := check_eq_error hc
    exact ⟨name, cause, rfl⟩
  | ok => exact absurd (check_eq_ok_iff.mp hc) h

/-- A supply of random words is enough: after fair words for all rows it holds fair words for all
columns. -/
def Supplies (a : Addressing) (groups entries : Nat) (words : List UInt32) : Prop :=
  ∃ used rest, words = used ++ rest ∧ groups ≤ fairCount (rowCount a entries) used ∧
    groups * a.groupSize.toNat ≤ fairCount a.colCardinality.toNat rest

private theorem drawIndices_eq_some_iff {rows cols elements : Nat} {words : List UInt32}
    {indices : Indices} :
    drawIndices rows cols groups elements words = some indices ↔
      ∃ rowValues rest colValues rest', draws rows groups words = some (rowValues, rest) ∧
        draws cols elements rest = some (colValues, rest') ∧
        indices = ⟨rowValues.toArray, colValues.toArray⟩ := by
  simp only [drawIndices, Option.bind_eq_bind, Option.bind_eq_some_iff, Prod.exists,
    Option.pure_def, Option.some.injEq]
  constructor
  · rintro ⟨rowValues, rest, hrows, colValues, rest', hcols, rfl⟩
    exact ⟨rowValues, rest, colValues, rest', hrows, hcols, rfl⟩
  · rintro ⟨rowValues, rest, colValues, rest', hrows, hcols, rfl⟩
    exact ⟨rowValues, rest, hrows, colValues, rest', hcols, rfl⟩

private theorem exists_drawIndices_iff {words : List UInt32} :
    (∃ indices, drawIndices (rowCount a entries) a.colCardinality.toNat groups
      (groups * a.groupSize.toNat) words = some indices) ↔ Supplies a groups entries words := by
  simp only [drawIndices_eq_some_iff]
  constructor
  · rintro ⟨indices, rowValues, rest, colValues, rest', hrows, hcols, -⟩
    obtain ⟨used, rfl, hused, -⟩ := used_of_draws hrows
    have hsome := congrArg Option.isSome hcols
    rw [Option.isSome_some, isSome_draws_iff] at hsome
    exact ⟨used, rest, rfl, hused.ge, hsome⟩
  · rintro ⟨used, rest, rfl, hrows, hcols⟩
    obtain ⟨⟨rowValues, left⟩, hdrawn⟩ :=
      Option.isSome_iff_exists.mp ((isSome_draws_iff _ _ _).mpr hrows)
    have henough : groups * a.groupSize.toNat ≤
        fairCount a.colCardinality.toNat (left ++ rest) := by
      rw [fairCount, List.countP_append, ← fairCount, ← fairCount]
      omega
    obtain ⟨⟨colValues, rest'⟩, hdrawn'⟩ :=
      Option.isSome_iff_exists.mp ((isSome_draws_iff _ _ _).mpr henough)
    exact ⟨_, rowValues, left ++ rest, colValues, rest', draws_append hdrawn rest, hdrawn', rfl⟩

private theorem size_ramp (entries period : Nat) : (ramp entries period).size = entries := by
  simp [ramp]

/-- The period of the codebook: the address space, or else the whole codebook. -/
def period (a : Addressing) (entries : Nat) : Nat :=
  match a.space? with
  | some space => space.toNat
  | none => entries

/-- Inputs are drawn indices over a codebook that repeats after its period. -/
theorem fromWords_eq_ok_iff {words : List UInt32} {inputs : Inputs} :
    fromWords a groups entries words = .ok inputs ↔
      Drawable a groups entries ∧
        drawIndices (rowCount a entries) a.colCardinality.toNat groups
          (groups * a.groupSize.toNat) words = some inputs.indices ∧
        inputs.codebook = ramp entries (period a entries) := by
  rw [fromWords, bind_eq_ok_iff, ← check_eq_ok_iff]
  constructor
  · rintro ⟨⟨⟩, hcheck, h⟩
    split at h
    · cases h
    · next indices hdrawn =>
      cases h
      exact ⟨hcheck, hdrawn, rfl⟩
  · rintro ⟨hcheck, hdrawn, hcodebook⟩
    obtain ⟨indices, codebook⟩ := inputs
    obtain rfl : codebook = _ := hcodebook
    refine ⟨(), hcheck, ?_⟩
    rw [hdrawn]
    rfl

private theorem random_eq (a : Addressing) (groups entries : Nat) (seed : UInt64) :
    random a groups entries seed = fromWords a groups entries
      (stream seed ((groups + groups * a.groupSize.toNat) / 8 + 16)) := by
  rw [random, fromWords]
  cases check a groups entries with
  | error fault => rfl
  | ok => rfl

/-- Inputs whose indices are below their cardinalities, as many as groups and positions, over the
repeating codebook. -/
structure Drawn (a : Addressing) (groups entries : Nat) (inputs : Inputs) : Prop where
  rows_size : inputs.indices.rows.size = groups
  rows_lt : ∀ row ∈ inputs.indices.rows, row.toNat < rowCount a entries
  cols_size : inputs.indices.cols.size = groups * a.groupSize.toNat
  cols_lt : ∀ col ∈ inputs.indices.cols, col.toNat < a.colCardinality.toNat
  codebook_size : inputs.codebook.size = entries
  codebook_eq : inputs.codebook = ramp entries (period a entries)

private theorem drawn_of_fromWords {words : List UInt32} {inputs : Inputs}
    (h : fromWords a groups entries words = .ok inputs) : Drawn a groups entries inputs := by
  obtain ⟨hdrawable, hdrawn, hcodebook⟩ := fromWords_eq_ok_iff.mp h
  obtain ⟨rowValues, rest, colValues, rest', hrows, hcols, hindices⟩ :=
    drawIndices_eq_some_iff.mp hdrawn
  obtain ⟨hrowCount, hrowLt⟩ := mem_of_draws hdrawable.rows_pos hdrawable.rows_le hrows
  obtain ⟨hcolCount, hcolLt⟩ :=
    mem_of_draws hdrawable.usable.colCardinality_pos hdrawable.cols_le hcols
  refine ⟨?_, ?_, ?_, ?_, by rw [hcodebook, size_ramp], hcodebook⟩
  · rw [hindices, List.size_toArray, hrowCount]
  · rw [hindices]
    exact fun row hrow ↦ hrowLt row (List.mem_toArray.mp hrow)
  · rw [hindices, List.size_toArray, hcolCount]
  · rw [hindices]
    exact fun col hcol ↦ hcolLt col (List.mem_toArray.mp hcol)

private theorem rowCount_of_mem {rows : UInt64} (h : rows ∈ a.rowCardinality) (entries : Nat) :
    rowCount a entries = rows.toNat := by
  rw [rowCount, Option.mem_def.mp h]

private theorem rowCount_mul_le
    (h : ∀ rows ∈ a.rowCardinality, rows.toNat * a.colCardinality.toNat ≤ entries) :
    rowCount a entries * a.colCardinality.toNat ≤ entries := by
  cases hrows : a.rowCardinality with
  | none =>
    rw [rowCount, hrows]
    exact Nat.div_mul_le_self entries a.colCardinality.toNat
  | some rows =>
    rw [rowCount_of_mem hrows]
    exact h rows hrows

private theorem rowCount_mul_le_period (h : a.Usable) (entries : Nat) :
    rowCount a entries * a.colCardinality.toNat ≤ period a entries := by
  unfold rowCount period space?
  cases hrows : a.rowCardinality with
  | none => exact Nat.div_mul_le_self entries a.colCardinality.toNat
  | some rows =>
    have hspace := h.space_le rows hrows
    have hmul : checkedMul rows a.colCardinality = some (rows * a.colCardinality) :=
      if_pos (by omega)
    rw [Option.bind_some, hmul]
    exact (toNat_of_checkedMul hmul).ge

/-- Indices below their cardinalities that fit in bytes have addresses of 16 bits. -/
theorem Drawable.space_le (h : Drawable a groups entries) :
    rowCount a entries * a.colCardinality.toNat ≤ 2 ^ 16 :=
  (Nat.mul_le_mul h.rows_le h.cols_le).trans (by decide)

/-- The row of the group of a position and its column, both below their cardinalities. -/
structure PairAt (a : Addressing) (entries : Nat) (indices : Indices) (i : Nat)
    (row col : UInt64) : Prop where
  row_eq : indices.rows[i / a.groupSize.toNat]? = some row
  col_eq : indices.cols[i]? = some col
  row_lt : row.toNat < rowCount a entries
  col_lt : col.toNat < a.colCardinality.toNat

namespace PairAt

variable {indices : Indices} {i : Nat} {row col : UInt64}

private theorem rowAt_eq (h : PairAt a entries indices i row col) :
    indices.rowAt a.groupSize.toNat i = row := by
  rw [Indices.rowAt, Array.getD_eq_getD_getElem?, h.row_eq, Option.getD_some]

private theorem colAt_eq (h : PairAt a entries indices i row col) : indices.colAt i = col := by
  rw [Indices.colAt, Array.getD_eq_getD_getElem?, h.col_eq, Option.getD_some]

private theorem addressAt_eq (h : PairAt a entries indices i row col) :
    a.addressAt indices i = row.toNat * a.colCardinality.toNat + col.toNat := by
  rw [addressAt, Indices.addressAt, h.rowAt_eq, h.colAt_eq]

private theorem addressAt_lt (h : PairAt a entries indices i row col) :
    a.addressAt indices i < rowCount a entries * a.colCardinality.toNat := by
  have hcol := h.col_lt
  rw [h.addressAt_eq]
  calc row.toNat * a.colCardinality.toNat + col.toNat
      < row.toNat * a.colCardinality.toNat + a.colCardinality.toNat := by omega
    _ = (row.toNat + 1) * a.colCardinality.toNat := (Nat.succ_mul _ _).symm
    _ ≤ rowCount a entries * a.colCardinality.toNat := Nat.mul_le_mul_right _ h.row_lt

end PairAt

namespace Drawn

variable {inputs : Inputs} {i : Nat}

private theorem exists_pairAt (h : Drawn a groups entries inputs)
    (hi : i < inputs.indices.cols.size) :
    ∃ row col, PairAt a entries inputs.indices i row col := by
  have hlt : i / a.groupSize.toNat < inputs.indices.rows.size := by
    rw [h.rows_size]
    apply Nat.div_lt_of_lt_mul
    rw [Nat.mul_comm, ← h.cols_size]
    exact hi
  exact ⟨_, _, Array.getElem?_eq_getElem hlt, Array.getElem?_eq_getElem hi,
    h.rows_lt _ (Array.getElem_mem hlt), h.cols_lt _ (Array.getElem_mem hi)⟩

private theorem addressAt_lt (h : Drawn a groups entries inputs)
    (hi : i < inputs.indices.cols.size) :
    a.addressAt inputs.indices i < rowCount a entries * a.colCardinality.toNat := by
  obtain ⟨row, col, hpair⟩ := h.exists_pairAt hi
  exact hpair.addressAt_lt

private theorem entryAt_eq (h : Drawn a groups entries inputs) (hu : a.Usable)
    (hi : i < inputs.indices.cols.size) (hlt : a.addressAt inputs.indices i < entries) :
    a.entryAt inputs.indices inputs.codebook i =
      Word.ofNat binary32 (a.addressAt inputs.indices i) := by
  have hperiod : a.addressAt inputs.indices i < period a entries :=
    (h.addressAt_lt hi).trans_le (rowCount_mul_le_period hu entries)
  have hmod : a.addressAt inputs.indices i % max (period a entries) 1 =
      a.addressAt inputs.indices i := Nat.mod_eq_of_lt (by omega)
  rw [entryAt, h.codebook_eq, ramp, getD_map_range _ _ hlt, hmod]

private theorem toRat_ofNat_addressAt (h : Drawn a groups entries inputs)
    (hd : Drawable a groups entries) (hi : i < inputs.indices.cols.size) :
    (Word.ofNat binary32 (a.addressAt inputs.indices i)).isFinite ∧
      (Word.ofNat binary32 (a.addressAt inputs.indices i)).toRat =
        a.addressAt inputs.indices i := by
  apply Word.toRat_ofNat (by decide) (by decide) (by decide)
  exact ((h.addressAt_lt hi).trans_le hd.space_le).trans (by decide)

/-- If the codebook holds all rows that indices are drawn from, the inputs are accepted. -/
theorem accept_eq_ok (h : Drawn a groups entries inputs) (hd : Drawable a groups entries)
    (hspace : rowCount a entries * a.colCardinality.toNat ≤ entries) :
    ∃ shape, (a.accept inputs.indices inputs.codebook.size).result = .ok shape := by
  have hg := hd.usable.groupSize_pos
  have hentries : 0 < entries :=
    (Nat.mul_pos hd.rows_pos hd.usable.colCardinality_pos).trans_le hspace
  have hfits : a.Fits inputs.indices.rows.size inputs.indices.cols.size
      inputs.codebook.size := by
    rw [h.rows_size, h.cols_size, h.codebook_size]
    exact ⟨hd.usable, Nat.mul_pos hd.groups_pos hg, Nat.dvd_mul_left ..,
      (Nat.mul_div_cancel _ hg).symm, hentries⟩
  refine accept_eq_ok_iff_faultAt.mpr ⟨hfits, fun i hi ↦ ?_⟩
  obtain ⟨row, col, hpair⟩ := h.exists_pairAt hi
  have haddress := hpair.addressAt_lt
  have hbits := hd.space_le
  have hresolve : a.resolve? inputs.codebook.size row col =
      some (.ofNat (a.addressAt inputs.indices i)) := by
    rw [resolve?_eq_some_iff, UInt64.toNat_ofNat', Nat.mod_eq_of_lt (by omega)]
    refine ⟨⟨hpair.col_lt, fun rows hrows ↦ ?_, ?_⟩, hpair.addressAt_eq⟩
    · rw [← rowCount_of_mem hrows entries]
      exact hpair.row_lt
    · rw [← hpair.addressAt_eq, h.codebook_size]
      exact haddress.trans_le hspace
  rw [faultAt_eq hfits hi, hpair.rowAt_eq, hpair.colAt_eq, hresolve]
  rfl

end Drawn

/-- An output that holds at every position the exact number `row · colCardinality + col` of the row
of its group and its column. -/
def HoldsAddresses (a : Addressing) (indices : Indices) (output : Array Single) : Prop :=
  output.size = indices.cols.size ∧
    ∀ i < indices.cols.size, ∃ row col value,
      indices.rows[i / a.groupSize.toNat]? = some row ∧ indices.cols[i]? = some col ∧
        output[i]? = some value ∧
          value = Word.ofNat binary32 (row.toNat * a.colCardinality.toNat + col.toNat) ∧
            value.isFinite ∧
              value.toRat = row.toNat * a.colCardinality.toNat + col.toNat

private theorem Drawn.holdsAddresses {inputs : Inputs} {output : Array Single}
    (h : Drawn a groups entries inputs) (hd : Drawable a groups entries)
    (ho : (a.dequantize inputs.indices inputs.codebook).result = .ok output) :
    HoldsAddresses a inputs.indices output := by
  obtain ⟨⟨shape, haccept⟩, rfl⟩ := dequantize_eq_ok_iff.mp ho
  obtain ⟨-, hreach, -⟩ := fits_of_accept_eq_ok haccept
  refine ⟨by simp, fun i hi ↦ ?_⟩
  obtain ⟨row, col, hpair⟩ := h.exists_pairAt hi
  have hlt : a.addressAt inputs.indices i < entries :=
    h.codebook_size ▸ (hreach i hi).1.address_lt
  obtain ⟨hfinite, hrat⟩ := h.toRat_ofNat_addressAt hd hi
  refine ⟨row, col, a.entryAt inputs.indices inputs.codebook i, hpair.row_eq, hpair.col_eq,
    by simp [hi], ?_⟩
  rw [h.entryAt_eq hd.usable hi hlt, ← hpair.addressAt_eq]
  refine ⟨rfl, hfinite, ?_⟩
  rw [hrat, hpair.addressAt_eq]
  push_cast
  rfl

/-- Validating what drawn inputs are dequantized to finds nothing, with any tolerance of at least
zero and room for the samples. -/
theorem Drawn.validate_clean {inputs : Inputs} {output : Array Single} {settings : Settings}
    (h : Drawn a groups entries inputs) (hd : Drawable a groups entries)
    (ho : (a.dequantize inputs.indices inputs.codebook).result = .ok output)
    (hreserve : settings.Reservable) (ht : settings.tolerance.AtLeast 0) :
    ∃ report, (a.validate inputs.indices inputs.codebook settings output).result = .ok report ∧
      report.Clean inputs.indices.cols.size := by
  obtain ⟨⟨shape, haccept⟩, rfl⟩ := dequantize_eq_ok_iff.mp ho
  obtain ⟨-, hreach, -⟩ := fits_of_accept_eq_ok haccept
  apply Addressing.validate_clean haccept hreserve (by simp)
  intro i hi
  have hlt : a.addressAt inputs.indices i < entries :=
    h.codebook_size ▸ (hreach i hi).1.address_lt
  rw [agrees_entries_iff a _ _ hi, h.entryAt_eq hd.usable hi hlt]
  exact ⟨(h.toRat_ofNat_addressAt hd hi).1, ht⟩

/-- Inputs are generated exactly if they can be drawn, and then the loop is closed: if the codebook
is not shorter than the address space of a row cardinality, they are dequantized to their exact
addresses and the output is validated without a finding; otherwise nothing else can be dequantized
than the exact addresses. -/
structure ClosesLoop (a : Addressing) (groups entries : Nat) (result : Except Fault Inputs) :
    Prop where
  ok_iff : (∃ inputs, result = .ok inputs) ↔ Drawable a groups entries
  refused : ¬ Drawable a groups entries → ∃ name cause, result = .error (.argument name cause)
  drawn : ∀ inputs, result = .ok inputs → Drawn a groups entries inputs
  given : ∀ inputs, result = .ok inputs →
    (∀ rows ∈ a.rowCardinality, rows.toNat * a.colCardinality.toNat ≤ entries) →
    ∃ output, (a.dequantize inputs.indices inputs.codebook).result = .ok output
  exact_addresses : ∀ inputs output, result = .ok inputs →
    (a.dequantize inputs.indices inputs.codebook).result = .ok output →
    HoldsAddresses a inputs.indices output
  validated : ∀ inputs output settings, result = .ok inputs →
    (a.dequantize inputs.indices inputs.codebook).result = .ok output →
    settings.Reservable → settings.tolerance.AtLeast 0 →
    ∃ report, (a.validate inputs.indices inputs.codebook settings output).result = .ok report ∧
      report.Clean inputs.indices.cols.size

/-- Inputs from a supply of random words that is enough close the loop. -/
theorem closesLoop_fromWords {words : List UInt32}
    (hwords : Drawable a groups entries → Supplies a groups entries words) :
    ClosesLoop a groups entries (fromWords a groups entries words) := by
  refine ⟨⟨?_, fun hd ↦ ?_⟩, fun hd ↦ ?_, fun inputs h ↦ drawn_of_fromWords h,
    fun inputs h hspace ↦ ?_, fun inputs output h ho ↦ ?_,
    fun inputs output settings h ho hreserve ht ↦ ?_⟩
  · rintro ⟨inputs, h⟩
    exact (fromWords_eq_ok_iff.mp h).1
  · obtain ⟨indices, hindices⟩ := exists_drawIndices_iff.mpr (hwords hd)
    exact ⟨⟨indices, _⟩, fromWords_eq_ok_iff.mpr ⟨hd, hindices, rfl⟩⟩
  · obtain ⟨name, cause, hcheck⟩ := exists_check_eq_error hd
    rw [fromWords, hcheck, error_bind]
    exact ⟨name, cause, rfl⟩
  · have hd := (fromWords_eq_ok_iff.mp h).1
    have haccept := (drawn_of_fromWords h).accept_eq_ok hd (rowCount_mul_le hspace)
    exact ⟨_, dequantize_eq_ok_iff.mpr ⟨haccept, rfl⟩⟩
  · exact (drawn_of_fromWords h).holdsAddresses (fromWords_eq_ok_iff.mp h).1 ho
  · exact (drawn_of_fromWords h).validate_clean (fromWords_eq_ok_iff.mp h).1 ho hreserve ht

/-- If the cardinalities divide the number of words, the stream of every seed is enough. -/
theorem supplies_stream (hrows : rowCount a entries ∣ 2 ^ 32)
    (hcols : a.colCardinality.toNat ∣ 2 ^ 32) (seed : UInt64) :
    Supplies a groups entries (stream seed ((groups + groups * a.groupSize.toNat) / 8 + 16)) := by
  have hlength := length_stream seed ((groups + groups * a.groupSize.toNat) / 8 + 16)
  refine ⟨_, _, (List.take_append_drop groups _).symm, ?_, ?_⟩
  · rw [fairCount_of_dvd hrows, List.length_take, hlength]
    omega
  · rw [fairCount_of_dvd hcols, List.length_drop, hlength]
    omega

/-- Generated inputs close the loop, whatever the random words: from any supply in which the draws
come to an end, so from the stream of any seed in which they do; and if the cardinalities are powers
of two they do so in the stream of every seed. -/
theorem generated_inputs_close_the_loop (a : Addressing) (groups entries : Nat) :
    (∀ words, (Drawable a groups entries → Supplies a groups entries words) →
      ClosesLoop a groups entries (fromWords a groups entries words)) ∧
    (∀ seed, (Drawable a groups entries → Supplies a groups entries
        (stream seed ((groups + groups * a.groupSize.toNat) / 8 + 16))) →
      ClosesLoop a groups entries (random a groups entries seed)) ∧
    ((∃ k, rowCount a entries = 2 ^ k) → (∃ k, a.colCardinality.toNat = 2 ^ k) → ∀ seed,
      ClosesLoop a groups entries (random a groups entries seed)) := by
  refine ⟨fun words ↦ closesLoop_fromWords, fun seed hseed ↦ ?_, ?_⟩
  · rw [random_eq]
    exact closesLoop_fromWords hseed
  · rintro ⟨j, hrows⟩ ⟨k, hcols⟩ seed
    rw [random_eq]
    apply closesLoop_fromWords
    intro hd
    -- a power of two that fits in a byte divides the number of words
    have hdvd : ∀ {n m : Nat}, n = 2 ^ m → n ≤ 256 → n ∣ 2 ^ 32 := by
      intro n m hn hle
      rw [hn]
      apply Nat.pow_dvd_pow
      have hlt : 2 ^ m < 2 ^ 9 := by omega
      have := (Nat.pow_lt_pow_iff_right Nat.one_lt_two).mp hlt
      omega
    exact supplies_stream (hdvd hrows hd.rows_le) (hdvd hcols hd.cols_le) seed

/-- Two groups of two positions are drawn from three columns and from the two whole rows of seven
entries; and the default addressing draws from the stream of a seed. -/
theorem generated_inputs_close_the_loop_two_groups :
    (∃ inputs output report,
      fromWords (unbounded 2 3) 2 7 [1, 0xf0000000, 2, 0x80000000, 0xffffff00, 3] = .ok inputs ∧
      ((unbounded 2 3).dequantize inputs.indices inputs.codebook).result = .ok output ∧
      HoldsAddresses (unbounded 2 3) inputs.indices output ∧
      ((unbounded 2 3).validate inputs.indices inputs.codebook ⟨Word.zero false, 5⟩
        output).result = .ok report ∧ report.Clean 4) ∧
    ∃ inputs output, random {} 2 64 42 = .ok inputs ∧ inputs.indices.cols.size = 32 ∧
      (({} : Addressing).dequantize inputs.indices inputs.codebook).result = .ok output ∧
      HoldsAddresses {} inputs.indices output := by
  have ht : (Word.zero false : Single).AtLeast 0 :=
    .finite (Word.isFinite_zero false (by decide)) (Word.toRat_zero false).ge
  constructor
  · have hd : Drawable (unbounded 2 3) 2 7 := by decide
    have hloop := (generated_inputs_close_the_loop (unbounded 2 3) 2 7).1
      [1, 0xf0000000, 2, 0x80000000, 0xffffff00, 3] fun _ ↦
        ⟨[1, 0xf0000000], [2, 0x80000000, 0xffffff00, 3], rfl, by decide, by decide⟩
    obtain ⟨inputs, h⟩ := hloop.ok_iff.mpr hd
    obtain ⟨output, ho⟩ := hloop.given inputs h (by simp [unbounded])
    obtain ⟨report, hr, hclean⟩ :=
      hloop.validated inputs output ⟨Word.zero false, 5⟩ h ho (by decide) ht
    rw [(hloop.drawn inputs h).cols_size] at hclean
    exact ⟨inputs, output, report, h, ho, hloop.exact_addresses inputs output h ho, hr, hclean⟩
  · have hd : Drawable {} 2 64 := by decide
    have hloop := (generated_inputs_close_the_loop {} 2 64).2.2 ⟨2, rfl⟩ ⟨4, rfl⟩ 42
    obtain ⟨inputs, h⟩ := hloop.ok_iff.mpr hd
    obtain ⟨output, ho⟩ := hloop.given inputs h fun rows hrows ↦ by
      cases hrows
      decide
    exact ⟨inputs, output, h, (hloop.drawn inputs h).cols_size, ho,
      hloop.exact_addresses inputs output h ho⟩

end IndexedCodebook.Synthetic
