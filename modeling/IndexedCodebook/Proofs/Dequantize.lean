import IndexedCodebook.Dequantize
import IndexedCodebook.Proofs.Addressing.Acceptance
import IndexedCodebook.Proofs.Gather

/-!
# What a dequantization gives

After its checks a dequantization gives one value per position: `dequantize_eq`,
`dequantizeWithScales_eq` and `dequantizeBFloat_eq` replace the gather by these values. So it
succeeds exactly if the lengths fit and every position reaches an entry, and then holds the entries
(`dequantize_ok_iff_and_entries`); otherwise the lowest position that reaches none decides the fault
of all three forms (`lowest_unreached_position_refused`).
-/

namespace IndexedCodebook.Addressing

open Outcome

variable {a : Addressing} {indices : Indices} {codebook scales : Array Single} {entries : Nat}

/-- The codebook entry at the exact address of a position. -/
def entryAt (a : Addressing) (indices : Indices) (codebook : Array Single) (position : Nat) :
    Single :=
  codebook.getD (a.addressAt indices position) (Word.zero false)

/-- The scale of the group of a position. -/
def scaleAt (a : Addressing) (scales : Array Single) (position : Nat) : Single :=
  scales.getD (position / a.groupSize.toNat) (Word.zero false)

/-- The entry of a position is the element of the codebook at its address. -/
theorem getElem?_addressAt {position : Nat}
    (hlt : a.addressAt indices position < codebook.size) :
    codebook[a.addressAt indices position]? = some (a.entryAt indices codebook position) := by
  rw [entryAt, Array.getD_eq_getD_getElem?, Array.getElem?_eq_getElem hlt, Option.getD_some]

/-- The outcome of beginning a dequantization is that of accepting its inputs. -/
theorem result_begin (a : Addressing) (indices : Indices) (entries : Nat) :
    (a.begin indices entries).result = (a.accept indices entries).result := by
  rw [begin, Traced.result_bind]
  cases (a.accept indices entries).result with
  | error fault => rfl
  | ok shape => rfl

private theorem gather_of_accept {α : Type} {lookup : Lookup α} {value : Nat → α} {shape : Shape}
    (h : (a.accept indices entries).result = .ok shape)
    (hv : ∀ i, a.addressAt indices i < 2 ^ 64 → a.addressAt indices i < entries →
      i / a.groupSize.toNat < indices.rows.size →
      indices.valueAt lookup a.groupSize.toNat a.colCardinality i = .ok (value i)) (blank : α) :
    indices.gather lookup a.groupSize.toNat a.colCardinality blank =
      .ok ((Array.range indices.cols.size).map value) := by
  obtain ⟨hf, hall, -⟩ := fits_of_accept_eq_ok h
  apply Indices.gather_eq_ok hf.usable.groupSize_pos hf.rows_mul_groupSize
  intro i hi
  exact hv i (hall i hi).2 (hall i hi).1.address_lt (hf.div_groupSize_lt hi)

/-- After the checks, a dequantization gives the entries of the positions. -/
theorem dequantize_eq (a : Addressing) (indices : Indices) (codebook : Array Single) :
    a.dequantize indices codebook =
      a.begin indices codebook.size >>= fun _ ↦
        .ofResult (.ok ((Array.range indices.cols.size).map (a.entryAt indices codebook))) := by
  apply Traced.bind_congr
  intro shape hb
  rw [result_begin] at hb
  rw [gather_of_accept hb fun i h64 hlt _ ↦ Indices.valueAt_entry h64 hlt _]
  rfl

/-- After the checks, a dequantization to bfloat16 gives the rounded entries of the positions. -/
theorem dequantizeBFloat_eq (a : Addressing) (indices : Indices) (codebook : Array Single) :
    a.dequantizeBFloat indices codebook =
      a.begin indices codebook.size >>= fun _ ↦
        .ofResult (.ok ((Array.range indices.cols.size).map fun i ↦
          (a.entryAt indices codebook i).convert bfloat16)) := by
  apply Traced.bind_congr
  intro shape hb
  rw [result_begin] at hb
  rw [gather_of_accept hb fun i h64 hlt _ ↦ Indices.valueAt_bfloat h64 hlt _]
  rfl

/-- Scales pass their check exactly if there is one per group. -/
theorem checkScales_eq_ok_iff {count groups : Nat} :
    checkScales count groups = .ok () ↔ count = groups := by
  unfold checkScales
  split
  · next h => simp [h]
  · next h => simp [h]

/-- Scales fail their check exactly if they are not one per group. -/
theorem checkScales_eq_error_iff {count groups : Nat} {fault : Fault} :
    checkScales count groups = .error fault ↔
      count ≠ groups ∧ fault = .shape (.scaleCount count groups) := by
  unfold checkScales
  split
  · next h => simp [h]
  · next h => simp [h, eq_comm]

/-- After the checks, a dequantization with scales gives the products of entries and scales. -/
theorem dequantizeWithScales_eq (a : Addressing) (indices : Indices)
    (codebook scales : Array Single) :
    a.dequantizeWithScales indices codebook scales =
      a.begin indices codebook.size >>= fun shape ↦
        Traced.ofResult (checkScales scales.size shape.groups) >>= fun _ ↦
          .ofResult (.ok ((Array.range indices.cols.size).map fun i ↦
            (a.entryAt indices codebook i).mul (a.scaleAt scales i))) := by
  apply Traced.bind_congr
  intro shape hb
  rw [result_begin] at hb
  apply Traced.bind_congr
  intro _ hs
  have hscales : scales.size = indices.rows.size := by
    obtain ⟨hf, -, rfl⟩ := fits_of_accept_eq_ok hb
    rw [checkScales_eq_ok_iff.mp hs, hf.rows_eq]
  rw [gather_of_accept hb fun i h64 hlt hr ↦
    Indices.valueAt_scaled h64 hlt (by rw [hscales]; exact hr) _]
  rfl

/-- A dequantization that succeeds had accepted inputs and gives their entries. -/
theorem dequantize_eq_ok_iff {output : Array Single} :
    (a.dequantize indices codebook).result = .ok output ↔
      (∃ shape, (a.accept indices codebook.size).result = .ok shape) ∧
        output = (Array.range indices.cols.size).map (a.entryAt indices codebook) := by
  rw [dequantize_eq, Traced.result_bind, result_begin, bind_eq_ok_iff]
  constructor
  · rintro ⟨shape, hs, ho⟩
    cases ho
    exact ⟨⟨shape, hs⟩, rfl⟩
  · rintro ⟨⟨shape, hs⟩, rfl⟩
    exact ⟨shape, hs, rfl⟩

/-- With scales it had one scale per group too, and gives the products. -/
theorem dequantizeWithScales_eq_ok_iff {scales output : Array Single} :
    (a.dequantizeWithScales indices codebook scales).result = .ok output ↔
      (∃ shape, (a.accept indices codebook.size).result = .ok shape) ∧
        scales.size = indices.rows.size ∧
        output = (Array.range indices.cols.size).map fun i ↦
          (a.entryAt indices codebook i).mul (a.scaleAt scales i) := by
  have hgroups : ∀ {shape}, (a.accept indices codebook.size).result = .ok shape →
      shape.groups = indices.rows.size := by
    intro shape hs
    obtain ⟨hf, -, rfl⟩ := fits_of_accept_eq_ok hs
    exact hf.rows_eq.symm
  rw [dequantizeWithScales_eq, Traced.result_bind, result_begin, bind_eq_ok_iff]
  constructor
  · rintro ⟨shape, hs, ho⟩
    rw [Traced.result_bind, bind_eq_ok_iff] at ho
    obtain ⟨_, hscales, ho⟩ := ho
    cases ho
    exact ⟨⟨shape, hs⟩, (checkScales_eq_ok_iff.mp hscales).trans (hgroups hs), rfl⟩
  · rintro ⟨⟨shape, hs⟩, hscales, rfl⟩
    refine ⟨shape, hs, ?_⟩
    rw [Traced.result_bind, Traced.result_ofResult,
      checkScales_eq_ok_iff.mpr (hscales.trans (hgroups hs).symm), ok_bind]
    rfl

/-- To bfloat16 it gives the rounded entries. -/
theorem dequantizeBFloat_eq_ok_iff {output : Array BFloat} :
    (a.dequantizeBFloat indices codebook).result = .ok output ↔
      (∃ shape, (a.accept indices codebook.size).result = .ok shape) ∧
        output = (Array.range indices.cols.size).map fun i ↦
          (a.entryAt indices codebook i).convert bfloat16 := by
  rw [dequantizeBFloat_eq, Traced.result_bind, result_begin, bind_eq_ok_iff]
  constructor
  · rintro ⟨shape, hs, ho⟩
    cases ho
    exact ⟨⟨shape, hs⟩, rfl⟩
  · rintro ⟨⟨shape, hs⟩, rfl⟩
    exact ⟨shape, hs, rfl⟩

/-- Inputs that are not accepted are refused by every form of dequantization alike. -/
theorem dequantize_eq_error_of_accept {fault : Fault}
    (h : (a.accept indices codebook.size).result = .error fault) :
    (a.dequantize indices codebook).result = .error fault ∧
      (∀ scales, (a.dequantizeWithScales indices codebook scales).result = .error fault) ∧
      (a.dequantizeBFloat indices codebook).result = .error fault := by
  rw [← result_begin] at h
  refine ⟨?_, fun scales ↦ ?_, ?_⟩
  · rw [dequantize, Traced.result_bind, h, error_bind]
  · rw [dequantizeWithScales, Traced.result_bind, h, error_bind]
  · rw [dequantizeBFloat, Traced.result_bind, h, error_bind]

/-- A dequantization from a codebook in memory succeeds exactly if the lengths fit and every
position reaches an entry. The output is then as long as the columns and holds at every position the
codebook entry at the exact address. -/
theorem dequantize_ok_iff_and_entries (a : Addressing) (indices : Indices)
    (codebook : Array Single) (hsize : codebook.size < 2 ^ 64) :
    ((∃ output, (a.dequantize indices codebook).result = .ok output) ↔
      a.Fits indices.rows.size indices.cols.size codebook.size ∧
        ∀ i < indices.cols.size, a.ReachesAt indices codebook.size i) ∧
    ∀ output, (a.dequantize indices codebook).result = .ok output →
      output.size = indices.cols.size ∧
        ∀ i < indices.cols.size, ∃ entry,
          codebook[a.addressAt indices i]? = some entry ∧ output[i]? = some entry := by
  constructor
  · constructor
    · rintro ⟨output, ho⟩
      obtain ⟨⟨shape, hs⟩, -⟩ := dequantize_eq_ok_iff.mp ho
      obtain ⟨hf, hall, -⟩ := fits_of_accept_eq_ok hs
      exact ⟨hf, fun i hi ↦ (hall i hi).1⟩
    · rintro ⟨hf, hall⟩
      exact ⟨_, dequantize_eq_ok_iff.mpr ⟨⟨_, accept_eq_ok hf hsize hall⟩, rfl⟩⟩
  · intro output ho
    obtain ⟨⟨shape, hs⟩, rfl⟩ := dequantize_eq_ok_iff.mp ho
    obtain ⟨-, hall, -⟩ := fits_of_accept_eq_ok hs
    refine ⟨by simp, fun i hi ↦ ⟨a.entryAt indices codebook i, ?_, by simp [hi]⟩⟩
    exact getElem?_addressAt (hall i hi).1.address_lt

/-- Two groups of two positions read a NaN, a subnormal number and a negative zero. -/
theorem dequantize_ok_iff_and_entries_two_groups :
    ∃ output : Array Single,
      ((unbounded 2 3).dequantize ⟨#[1, 0], #[2, 0, 1, 1]⟩
        #[.ofBits 0x3f800000, .ofBits 0x80000000, .ofBits 0x7fc00001, .ofBits 1,
          .ofBits 0xff800000, .ofBits 0x7f800001]).result = .ok output ∧
      output.size = 4 ∧ output[0]? = some (Word.ofBits 0x7f800001) ∧
      output[1]? = some (Word.ofBits 1) ∧ output[3]? = some (Word.ofBits 0x80000000) := by
  have h := dequantize_ok_iff_and_entries (unbounded 2 3) ⟨#[1, 0], #[2, 0, 1, 1]⟩
    #[.ofBits 0x3f800000, .ofBits 0x80000000, .ofBits 0x7fc00001, .ofBits 1, .ofBits 0xff800000,
      .ofBits 0x7f800001] (by decide)
  have hfits : (unbounded 2 3).Fits 2 4 6 := by decide
  obtain ⟨output, ho⟩ := h.1.mpr ⟨hfits, by decide⟩
  obtain ⟨hsize, hall⟩ := h.2 output ho
  have hat (i : Nat) (hi : i < 4) := hall i hi
  obtain ⟨x, hx, h0⟩ := hat 0 (by decide)
  obtain ⟨y, hy, h1⟩ := hat 1 (by decide)
  obtain ⟨z, hz, h3⟩ := hat 3 (by decide)
  exact ⟨output, ho, hsize, h0.trans hx.symm, h1.trans hy.symm, h3.trans hz.symm⟩

/-- If the lengths fit and some position reaches no entry, accepting the inputs and every form of
dequantization are refused for the lowest such position, with its indices, its exact address (the
largest 64-bit number if it does not fit) and the length of the codebook. -/
theorem lowest_unreached_position_refused (a : Addressing) (indices : Indices) (entries : Nat)
    (hsize : entries < 2 ^ 64) (shape : Shape)
    (hlengths : (a.shapeOf indices.rows.size indices.cols.size entries).result = .ok shape)
    (hmiss : ∃ i < indices.cols.size, ¬ a.ReachesAt indices entries i) :
    ∃ fault : AddressFault,
      fault.position < indices.cols.size ∧ ¬ a.ReachesAt indices entries fault.position ∧
      (∀ i < fault.position, a.ReachesAt indices entries i) ∧
      fault.row = indices.rowAt a.groupSize.toNat fault.position ∧
      fault.col = indices.colAt fault.position ∧
      fault.address.toNat = min (a.addressAt indices fault.position) (2 ^ 64 - 1) ∧
      fault.entries = entries ∧
      (a.accept indices entries).result = .error (.address fault) ∧
      ∀ codebook : Array Single, codebook.size = entries →
        (a.dequantize indices codebook).result = .error (.address fault) ∧
        (∀ scales, (a.dequantizeWithScales indices codebook scales).result =
          .error (.address fault)) ∧
        (a.dequantizeBFloat indices codebook).result = .error (.address fault) := by
  have hf := fits_of_shapeOf_eq_ok hlengths
  obtain ⟨i, hi, hbad⟩ := hmiss
  obtain ⟨p, hp, hmiss, hlow, hr⟩ := accept_eq_lowest hf hsize hi hbad
  refine ⟨a.addressFault indices entries p, hp, hmiss, hlow, rfl, rfl,
    toNat_addressFault_address a indices entries p, rfl, hr, ?_⟩
  rintro codebook rfl
  exact dequantize_eq_error_of_accept hr

/-- The lowest of three faulty positions has an address beyond 64 bits, the others are a column
beyond its cardinality and an address beyond the codebook. -/
theorem lowest_unreached_position_refused_overflow :
    ∃ fault : AddressFault, fault.position = 1 ∧ fault.address.toNat = 2 ^ 64 - 1 ∧
      fault.row.toNat = 2 ^ 64 - 1 ∧
      ((unbounded 1 16).accept ⟨#[3, 0xffffffffffffffff, 0, 9], #[15, 0, 16, 0]⟩ 64).result =
        .error (.address fault) := by
  obtain ⟨fault, hp, hmiss, hlow, hrow, -, haddress, -, haccept, -⟩ :=
    lowest_unreached_position_refused (unbounded 1 16)
      ⟨#[3, 0xffffffffffffffff, 0, 9], #[15, 0, 16, 0]⟩ 64 (by decide) ⟨4, 4, 64⟩ rfl
      ⟨3, by decide, by decide⟩
  have hone : fault.position = 1 := by
    have hle : ¬ 1 < fault.position := fun hlt ↦ absurd (hlow 1 hlt) (by decide)
    have hne : fault.position ≠ 0 := by
      intro hz
      rw [hz] at hmiss
      exact hmiss (by decide)
    omega
  rw [hone] at haddress hrow
  exact ⟨fault, hone, haddress, congrArg UInt64.toNat hrow, haccept⟩

end IndexedCodebook.Addressing
