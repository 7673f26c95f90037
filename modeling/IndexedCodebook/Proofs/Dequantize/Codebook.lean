import IndexedCodebook.Proofs.Dequantize
import Mathlib.Data.Finset.Lattice.Fold
import Mathlib.Order.Lattice.Nat

/-!
# What matters of a codebook

Only the entries at the addresses of the positions matter, so a codebook with the same ones gives
the same output (`entryAt_congr` and `accept_congr`). One of another length gives it as long as it
is longer than the highest address; a shorter one is refused for the first position whose address it
does not reach, and never read at another place instead (`codebook_read_up_to_highest_address`).
-/

namespace IndexedCodebook.Addressing

open Outcome

variable {a : Addressing} {indices : Indices} {codebook codebook' : Array Single}
  {entries entries' : Nat}

/-- Codebooks with the same elements at the address of a position have the same entry there. -/
theorem entryAt_congr {i : Nat}
    (h : codebook'[a.addressAt indices i]? = codebook[a.addressAt indices i]?) :
    a.entryAt indices codebook' i = a.entryAt indices codebook i := by
  rw [entryAt, entryAt, Array.getD_eq_getD_getElem?, Array.getD_eq_getD_getElem?, h]

private theorem faultAt_eq_none_iff_of_accept {shape : Shape}
    (h : (a.accept indices entries).result = .ok shape)
    (hf : a.Fits indices.rows.size indices.cols.size entries') {i : Nat}
    (hi : i < indices.cols.size) :
    a.faultAt indices entries' i = none ↔ a.addressAt indices i < entries' := by
  obtain ⟨-, hall, -⟩ := fits_of_accept_eq_ok h
  obtain ⟨hr, h64⟩ := hall i hi
  constructor
  · intro hnone
    exact (reachesAt_of_faultAt_eq_none hf hi hnone).1.address_lt
  · intro hlt
    have hresolve : a.resolve? entries' (indices.rowAt a.groupSize.toNat i) (indices.colAt i) =
        some (.ofNat (a.addressAt indices i)) := by
      rw [resolve?_eq_some_iff, UInt64.toNat_ofNat', Nat.mod_eq_of_lt h64]
      exact ⟨{ hr with address_lt := hlt }, rfl⟩
    rw [faultAt_eq hf hi, hresolve]
    rfl

/-- Inputs that are accepted with a codebook are accepted with any other one that has the same
elements at the addresses of all positions. -/
theorem accept_congr {shape : Shape} (h : (a.accept indices codebook.size).result = .ok shape)
    (hsame : ∀ i < indices.cols.size,
      codebook'[a.addressAt indices i]? = codebook[a.addressAt indices i]?) :
    ∃ shape', (a.accept indices codebook'.size).result = .ok shape' := by
  obtain ⟨hf, hall, -⟩ := fits_of_accept_eq_ok h
  have hlt : ∀ i < indices.cols.size, a.addressAt indices i < codebook'.size := by
    intro i hi
    have hentry := (hsame i hi).trans (getElem?_addressAt (hall i hi).1.address_lt)
    exact (Array.getElem?_eq_some_iff.mp hentry).1
  have hf' : a.Fits indices.rows.size indices.cols.size codebook'.size :=
    { hf with entries_pos := Nat.zero_lt_of_lt (hlt 0 hf.columns_pos) }
  exact accept_eq_ok_iff_faultAt.mpr
    ⟨hf', fun i hi ↦ (faultAt_eq_none_iff_of_accept h hf' hi).mpr (hlt i hi)⟩

/-- An output is the output of any other codebook that has the same elements at the addresses of all
positions. -/
theorem dequantize_congr {output : Array Single}
    (h : (a.dequantize indices codebook).result = .ok output)
    (hsame : ∀ i < indices.cols.size,
      codebook'[a.addressAt indices i]? = codebook[a.addressAt indices i]?) :
    (a.dequantize indices codebook').result = .ok output := by
  obtain ⟨⟨shape, hs⟩, rfl⟩ := dequantize_eq_ok_iff.mp h
  refine dequantize_eq_ok_iff.mpr ⟨accept_congr hs hsame, ?_⟩
  exact Array.map_congr_left fun i hi ↦ (entryAt_congr (hsame i (Array.mem_range.mp hi))).symm

/-- The highest address of all positions. -/
def highestAddress (a : Addressing) (indices : Indices) : Nat :=
  (Finset.range indices.cols.size).sup (a.addressAt indices)

private theorem highestAddress_lt_iff {n : Nat} (hpos : 0 < n) :
    a.highestAddress indices < n ↔ ∀ i < indices.cols.size, a.addressAt indices i < n := by
  rw [highestAddress, Finset.sup_lt_iff hpos]
  simp only [Finset.mem_range]

/-- If the highest address of accepted inputs is not below the length of another codebook, they are
refused with it for the first position whose address is not, with that address. -/
theorem accept_eq_error_of_le_highestAddress {shape : Shape}
    (h : (a.accept indices entries).result = .ok shape) (hpos : 0 < entries')
    (hle : entries' ≤ a.highestAddress indices) :
    ∃ p < indices.cols.size, entries' ≤ a.addressAt indices p ∧
      (∀ i < p, a.addressAt indices i < entries') ∧
      (a.accept indices entries').result =
        .error (.address (a.addressFault indices entries' p)) := by
  obtain ⟨hf, -, -⟩ := fits_of_accept_eq_ok h
  have hf' : a.Fits indices.rows.size indices.cols.size entries' := { hf with entries_pos := hpos }
  -- the lengths fit as before, so that only a position can be refused
  have hnone {i : Nat} (hi : i < indices.cols.size) := faultAt_eq_none_iff_of_accept h hf' hi
  cases hr : (a.accept indices entries').result with
  | ok shape' =>
    obtain ⟨-, hall⟩ := accept_eq_ok_iff_faultAt.mp ⟨shape', hr⟩
    have hlt := (highestAddress_lt_iff hpos).mpr fun i hi ↦ (hnone hi).mp (hall i hi)
    exact absurd hle (Nat.not_le_of_lt hlt)
  | error fault =>
    obtain ⟨p, hp, rfl, hfault, hlow⟩ := faultAt_of_accept_eq_error hf' hr
    rw [ne_eq, hnone hp, Nat.not_lt] at hfault
    exact ⟨p, hp, hfault, fun i hi ↦ (hnone (Nat.lt_trans hi hp)).mp (hlow i hi), rfl⟩

private theorem getElem?_of_cut_or_extended
    (h : codebook' = codebook.take codebook'.size ∨ ∃ more, codebook' = codebook ++ more) {i : Nat}
    (hi' : i < codebook'.size) (hi : i < codebook.size) : codebook'[i]? = codebook[i]? := by
  rcases h with h | ⟨more, rfl⟩
  · have hcut : codebook'[i]? = (codebook.take codebook'.size)[i]? := congrArg (·[i]?) h
    rw [hcut, Array.take_eq_extract, Array.getElem?_extract, if_pos (by omega), Nat.zero_add]
  · exact Array.getElem?_append_left hi

/-- A codebook matters up to the highest address that is used. Cut after it or extended by any
entries, it gives the same output; cut before it, to one entry at least, it is refused for the first
position whose exact address is beyond the cut. -/
theorem codebook_read_up_to_highest_address (a : Addressing) (indices : Indices)
    (codebook output codebook' : Array Single)
    (h : (a.dequantize indices codebook).result = .ok output) (hpos : 0 < codebook'.size)
    (hother : codebook' = codebook.take codebook'.size ∨ ∃ more, codebook' = codebook ++ more) :
    (a.highestAddress indices < codebook'.size →
      (a.dequantize indices codebook').result = .ok output) ∧
    (codebook'.size ≤ a.highestAddress indices → ∃ fault : AddressFault,
      (a.dequantize indices codebook').result = .error (.address fault) ∧
      fault.entries = codebook'.size ∧ codebook'.size ≤ fault.address.toNat ∧
      fault.position < indices.cols.size ∧
      fault.address.toNat = a.addressAt indices fault.position ∧
      fault.row = indices.rowAt a.groupSize.toNat fault.position ∧
      fault.col = indices.colAt fault.position ∧
      ∀ i < fault.position, a.addressAt indices i < codebook'.size) := by
  obtain ⟨⟨shape, hs⟩, -⟩ := dequantize_eq_ok_iff.mp h
  obtain ⟨-, hall, -⟩ := fits_of_accept_eq_ok hs
  constructor
  · intro hlt
    apply dequantize_congr h
    intro i hi
    exact getElem?_of_cut_or_extended hother ((highestAddress_lt_iff hpos).mp hlt i hi)
      (hall i hi).1.address_lt
  · intro hle
    obtain ⟨p, hp, hbeyond, hlow, hr⟩ := accept_eq_error_of_le_highestAddress hs hpos hle
    have haddress : (a.addressFault indices codebook'.size p).address.toNat =
        a.addressAt indices p := by
      have h64 := (hall p hp).2
      rw [toNat_addressFault_address, Nat.min_eq_left (by omega)]
    exact ⟨a.addressFault indices codebook'.size p, (dequantize_eq_error_of_accept hr).1, rfl,
      haddress ▸ hbeyond, hp, haddress, rfl, rfl, hlow⟩

/-- The highest address is that of the first position, 4. Cut to five entries the codebook is long
enough, and cut to four it is refused for that position. -/
theorem codebook_read_up_to_highest_address_five :
    (unbounded 2 3).highestAddress ⟨#[1, 0], #[1, 0, 2, 1]⟩ = 4 ∧
    ((unbounded 2 3).dequantize ⟨#[1, 0], #[1, 0, 2, 1]⟩ #[.ofBits 0, .ofBits 1, .ofBits 2,
        .ofBits 3, .ofBits 4]).result = .ok #[.ofBits 4, .ofBits 3, .ofBits 2, .ofBits 1] ∧
    ((unbounded 2 3).dequantize ⟨#[1, 0], #[1, 0, 2, 1]⟩ #[.ofBits 0, .ofBits 1, .ofBits 2,
        .ofBits 3, .ofBits 4, .ofBits 5, .ofBits 6]).result =
      .ok #[.ofBits 4, .ofBits 3, .ofBits 2, .ofBits 1] ∧
    ∃ fault : AddressFault, ((unbounded 2 3).dequantize ⟨#[1, 0], #[1, 0, 2, 1]⟩
        #[.ofBits 0, .ofBits 1, .ofBits 2, .ofBits 3]).result = .error (.address fault) ∧
      fault.address = 4 ∧ fault.entries = 4 := by
  have hok : ((unbounded 2 3).dequantize ⟨#[1, 0], #[1, 0, 2, 1]⟩ #[.ofBits 0, .ofBits 1,
      .ofBits 2, .ofBits 3, .ofBits 4, .ofBits 5]).result =
        .ok #[.ofBits 4, .ofBits 3, .ofBits 2, .ofBits 1] := rfl
  have hhighest : (unbounded 2 3).highestAddress ⟨#[1, 0], #[1, 0, 2, 1]⟩ = 4 := by decide
  have hcut := codebook_read_up_to_highest_address _ _ _ _ #[.ofBits 0, .ofBits 1, .ofBits 2,
    .ofBits 3, .ofBits 4] hok (by decide) (.inl rfl)
  have hextended := codebook_read_up_to_highest_address _ _ _ _ #[.ofBits 0, .ofBits 1, .ofBits 2,
    .ofBits 3, .ofBits 4, .ofBits 5, .ofBits 6] hok (by decide) (.inr ⟨#[.ofBits 6], rfl⟩)
  have hshort := codebook_read_up_to_highest_address _ _ _ _ #[.ofBits 0, .ofBits 1, .ofBits 2,
    .ofBits 3] hok (by decide) (.inl rfl)
  rw [hhighest] at hcut hextended hshort
  obtain ⟨fault, hfault, hentries, hle, hp, haddress, -⟩ := hshort.2 (by decide)
  refine ⟨hhighest, hcut.1 (by decide), hextended.1 (by decide), fault, hfault, ?_, hentries⟩
  have hbound : ∀ i < 4, (unbounded 2 3).addressAt ⟨#[1, 0], #[1, 0, 2, 1]⟩ i ≤ 4 := by decide
  have hmax := hbound fault.position hp
  have hle' : 4 ≤ fault.address.toNat := hle
  exact UInt64.toNat.inj (Nat.le_antisymm (haddress ▸ hmax) hle')

end IndexedCodebook.Addressing
