import Mathlib.Data.Set.Function
import Mathlib.Order.Interval.Set.Defs
import IndexedCodebook.Proofs.Addressing.Lengths
import IndexedCodebook.Proofs.Addressing.Reach

/-!
# Every reachable entry has one index pair

A usable addressing reaches the entries of a codebook up to the end of its address space, or all of
them without a row cardinality (`Addressing.reachable`). The pair of an address is its quotient and
its remainder by the stride (`eq_div_mod_of_resolve?` and `resolve?_div_mod`), so resolution is a
bijection between the pairs that resolve and the reachable addresses (`resolves_each_entry_once`).
-/

namespace IndexedCodebook.Addressing

variable {a : Addressing} {entries : Nat} {row col address : UInt64}

/-- How many entries of a codebook index pairs can reach, from the first one on. -/
def reachable (a : Addressing) (entries : Nat) : Nat :=
  match a.rowCardinality with
  | none => entries
  | some rows => min entries (rows.toNat * a.colCardinality.toNat)

/-- Reachable entries lie in the codebook and in the address space, if that is bounded. -/
theorem lt_reachable_iff {n : Nat} :
    n < a.reachable entries ↔
      n < entries ∧ ∀ rows ∈ a.rowCardinality, n < rows.toNat * a.colCardinality.toNat := by
  unfold reachable
  cases a.rowCardinality with
  | none => simp
  | some rows => simp

/-- Below the stride, an address lies in the first rows exactly if its row is one of them. -/
theorem mul_add_lt_mul_iff {stride n m k : Nat} (h : k < stride) :
    n * stride + k < m * stride ↔ n < m := by
  have hdiv : (n * stride + k) / stride = n := by
    rw [Nat.mul_comm, Nat.mul_add_div (by omega), Nat.div_eq_of_lt h, Nat.add_zero]
  rw [← Nat.div_lt_iff_lt_mul (by omega), hdiv]

private theorem reaches_iff_lt_reachable :
    a.Reaches entries row col ↔
      col.toNat < a.colCardinality.toNat ∧
        row.toNat * a.colCardinality.toNat + col.toNat < a.reachable entries := by
  rw [lt_reachable_iff]
  constructor
  · rintro ⟨hcol, hrow, haddress⟩
    exact ⟨hcol, haddress, fun rows hrows ↦ (mul_add_lt_mul_iff hcol).mpr (hrow rows hrows)⟩
  · rintro ⟨hcol, haddress, hspace⟩
    exact ⟨hcol, fun rows hrows ↦ (mul_add_lt_mul_iff hcol).mp (hspace rows hrows), haddress⟩

private theorem eq_div_mod_of_resolve? (h : a.resolve? entries row col = some address) :
    row.toNat = address.toNat / a.colCardinality.toNat ∧
      col.toNat = address.toNat % a.colCardinality.toNat := by
  obtain ⟨hreaches, haddress⟩ := resolve?_eq_some_iff.mp h
  have hcol := hreaches.col_lt
  rw [haddress, Nat.mul_comm, Nat.mul_add_div (by omega), Nat.mul_add_mod, Nat.div_eq_of_lt hcol,
    Nat.mod_eq_of_lt hcol]
  exact ⟨rfl, rfl⟩

private theorem resolve?_div_mod (h : a.Usable) (hlt : address.toNat < a.reachable entries) :
    a.resolve? entries (address / a.colCardinality) (address % a.colCardinality) =
      some address := by
  have hpos := h.colCardinality_pos
  have haddress : address.toNat = (address / a.colCardinality).toNat * a.colCardinality.toNat +
      (address % a.colCardinality).toNat := by
    rw [UInt64.toNat_div, UInt64.toNat_mod, Nat.div_add_mod']
  rw [resolve?_eq_some_iff, reaches_iff_lt_reachable, ← haddress, UInt64.toNat_mod]
  exact ⟨⟨Nat.mod_lt _ hpos, hlt⟩, rfl⟩

private theorem resolve?_eq_none_of_overflow
    (h : 2 ^ 64 ≤ row.toNat * a.colCardinality.toNat + col.toNat) :
    a.resolve? entries row col = none := by
  refine Option.eq_none_iff_forall_ne_some.mpr fun address haddress ↦ ?_
  have hlt := address.toNat_lt
  rw [(resolve?_eq_some_iff.mp haddress).2] at hlt
  omega

/-- What a pair resolves to, as a natural number. -/
def resolveNat? (a : Addressing) (entries : Nat) (pair : UInt64 × UInt64) : Option Nat :=
  (a.resolve? entries pair.1 pair.2).map UInt64.toNat

/-- A pair resolves to the natural number of an address. -/
theorem resolveNat?_eq_some_iff {pair : UInt64 × UInt64} {n : Nat} :
    a.resolveNat? entries pair = some n ↔
      ∃ address, a.resolve? entries pair.1 pair.2 = some address ∧ address.toNat = n :=
  Option.map_eq_some_iff

/-- Different pairs resolve to different addresses. -/
theorem resolveNat?_injOn (a : Addressing) (entries : Nat) :
    Set.InjOn (a.resolveNat? entries) {pair | (a.resolveNat? entries pair).isSome} := by
  rintro ⟨row, col⟩ hsome ⟨row', col'⟩ - heq
  obtain ⟨n, hn⟩ := Option.isSome_iff_exists.mp hsome
  obtain ⟨address, hpair, rfl⟩ := resolveNat?_eq_some_iff.mp hn
  obtain ⟨address', hpair', haddress⟩ := resolveNat?_eq_some_iff.mp (heq.symm.trans hn)
  obtain ⟨hrow, hcol⟩ := eq_div_mod_of_resolve? hpair
  obtain ⟨hrow', hcol'⟩ := eq_div_mod_of_resolve? hpair'
  rw [haddress] at hrow' hcol'
  exact Prod.ext (UInt64.toNat.inj (hrow.trans hrow'.symm))
    (UInt64.toNat.inj (hcol.trans hcol'.symm))

/-- Pairs that resolve, resolve to a reachable address. -/
theorem resolveNat?_mapsTo (a : Addressing) (entries : Nat) :
    Set.MapsTo (a.resolveNat? entries) {pair | (a.resolveNat? entries pair).isSome}
      (Set.image some (Set.Iio (a.reachable entries))) := by
  rintro ⟨row, col⟩ hsome
  obtain ⟨n, hn⟩ := Option.isSome_iff_exists.mp hsome
  obtain ⟨address, hpair, rfl⟩ := resolveNat?_eq_some_iff.mp hn
  obtain ⟨hreaches, haddress⟩ := resolve?_eq_some_iff.mp hpair
  refine ⟨address.toNat, ?_, hn.symm⟩
  rw [haddress]
  exact (reaches_iff_lt_reachable.mp hreaches).2

/-- In a codebook with a 64-bit length, every reachable address is resolved to. -/
theorem resolveNat?_surjOn (h : a.Usable) (hsize : entries < 2 ^ 64) :
    Set.SurjOn (a.resolveNat? entries) {pair | (a.resolveNat? entries pair).isSome}
      (Set.image some (Set.Iio (a.reachable entries))) := by
  rintro - ⟨n, hn, rfl⟩
  have hword : (UInt64.ofNat n).toNat = n := by
    have hlt := (lt_reachable_iff.mp hn).1
    rw [UInt64.toNat_ofNat', Nat.mod_eq_of_lt (by omega)]
  have hlt : (UInt64.ofNat n).toNat < a.reachable entries := hword.symm ▸ hn
  have hpair := resolve?_div_mod h hlt
  have heq : a.resolveNat? entries (.ofNat n / a.colCardinality, .ofNat n % a.colCardinality) =
      some n := resolveNat?_eq_some_iff.mpr ⟨_, hpair, hword⟩
  exact ⟨_, Option.isSome_iff_exists.mpr ⟨n, heq⟩, heq⟩

/-- With an addressing that passes its check, resolution is a bijection between the index pairs that
resolve and the reachable addresses. The pair of an address is its quotient and its remainder by the
stride, its address is exact, and no pair resolves whose exact address does not fit in 64 bits. -/
theorem resolves_each_entry_once (a : Addressing) (hcheck : a.check = .ok ()) (entries : Nat)
    (hsize : entries < 2 ^ 64) :
    Set.BijOn (a.resolveNat? entries) {pair | (a.resolveNat? entries pair).isSome}
      (Set.image some (Set.Iio (a.reachable entries))) ∧
    (∀ row col address, a.resolve? entries row col = some address →
      row.toNat = address.toNat / a.colCardinality.toNat ∧
      col.toNat = address.toNat % a.colCardinality.toNat ∧
      address.toNat = row.toNat * a.colCardinality.toNat + col.toNat) ∧
    ∀ row col : UInt64, 2 ^ 64 ≤ row.toNat * a.colCardinality.toNat + col.toNat →
      a.resolve? entries row col = none := by
  have husable := (check_eq_ok_iff a).mp hcheck
  refine ⟨⟨?_, ?_, ?_⟩, ?_, ?_⟩
  · exact a.resolveNat?_mapsTo entries
  · exact a.resolveNat?_injOn entries
  · exact resolveNat?_surjOn husable hsize
  · intro row col address h
    obtain ⟨hrow, hcol⟩ := eq_div_mod_of_resolve? h
    exact ⟨hrow, hcol, (resolve?_eq_some_iff.mp h).2⟩
  · exact fun row col h ↦ resolve?_eq_none_of_overflow h

/-- In rows of three entries the address of this row wraps around to 2, which is an entry of the
codebook, but the pair does not resolve. Entry 4 has one pair. -/
theorem resolves_each_entry_once_wrapped_row :
    (6148914691236517206 * 3 + 0 : UInt64) = 2 ∧
    (unbounded 1 3).resolve? 5 6148914691236517206 0 = none ∧
    (unbounded 1 3).resolveNat? 5 (1, 1) = some 4 ∧
    ∀ pair, (unbounded 1 3).resolveNat? 5 pair = some 4 → pair = (1, 1) := by
  obtain ⟨hbij, -, hoverflow⟩ := resolves_each_entry_once (unbounded 1 3) rfl 5 (by decide)
  have hfour : (unbounded 1 3).resolveNat? 5 (1, 1) = some 4 := rfl
  refine ⟨rfl, hoverflow _ _ (by decide), hfour, fun pair hpair ↦ ?_⟩
  exact hbij.injOn (Option.isSome_iff_exists.mpr ⟨4, hpair⟩)
    (Option.isSome_iff_exists.mpr ⟨4, hfour⟩) (hpair.trans hfour.symm)

end IndexedCodebook.Addressing
