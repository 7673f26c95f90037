/-!
# Addresses in 64 bits

A row index and a column index combine into `row · stride + col`. Checked arithmetic gives that
number exactly or not at all: `address?_eq_ite` says when.

Source: `quant/codebook` 42–46.
-/

namespace IndexedCodebook

-- A power with a natural exponent is the core library's, also in scope of `Monoid`.
attribute [local instance (20000)] instPowNat

/-- The product, if it fits in 64 bits. -/
def checkedMul (a b : UInt64) : Option UInt64 :=
  if a.toNat * b.toNat < 2 ^ (64 : Nat) then some (a * b) else none

/-- The sum, if it fits in 64 bits. -/
def checkedAdd (a b : UInt64) : Option UInt64 :=
  if a.toNat + b.toNat < 2 ^ (64 : Nat) then some (a + b) else none

/-- A checked product is the exact product. -/
theorem toNat_of_checkedMul {a b c : UInt64} (h : checkedMul a b = some c) :
    c.toNat = a.toNat * b.toNat := by
  unfold checkedMul at h
  split at h
  · next hlt =>
    cases h
    rw [UInt64.toNat_mul, Nat.mod_eq_of_lt hlt]
  · cases h

/-- A checked sum is the exact sum. -/
theorem toNat_of_checkedAdd {a b c : UInt64} (h : checkedAdd a b = some c) :
    c.toNat = a.toNat + b.toNat := by
  unfold checkedAdd at h
  split at h
  · next hlt =>
    cases h
    rw [UInt64.toNat_add, Nat.mod_eq_of_lt hlt]
  · cases h

/-- The address of an index pair in a table of the given stride, if it fits in 64 bits.
`codebook_address`, `quant/codebook` 44–46. -/
def address? (row col stride : UInt64) : Option UInt64 :=
  (checkedMul row stride).bind (checkedAdd · col)

/-- A pair has an address exactly if the exact address fits, and then that is its address. -/
theorem address?_eq_some_iff {row col stride a : UInt64} :
    address? row col stride = some a ↔ a.toNat = row.toNat * stride.toNat + col.toNat := by
  have ha := a.toNat_lt
  unfold address?
  constructor
  · intro h
    obtain ⟨p, hp, hs⟩ := Option.bind_eq_some_iff.1 h
    rw [toNat_of_checkedAdd hs, toNat_of_checkedMul hp]
  · intro h
    have hm : row.toNat * stride.toNat < 2 ^ 64 := by omega
    have hp : (row * stride).toNat = row.toNat * stride.toNat := by
      rw [UInt64.toNat_mul, Nat.mod_eq_of_lt hm]
    have hs : (row * stride).toNat + col.toNat < 2 ^ 64 := by omega
    simp only [checkedMul, hm, if_true, Option.bind_some, checkedAdd, hs, Option.some.injEq]
    apply UInt64.toNat.inj
    rw [UInt64.toNat_add, hp, Nat.mod_eq_of_lt (by omega), h]

/-- The address of a pair is the exact address, if that fits. -/
theorem address?_eq_ite (row col stride : UInt64) :
    address? row col stride =
      if row.toNat * stride.toNat + col.toNat < 2 ^ (64 : Nat) then
        some (.ofNat (row.toNat * stride.toNat + col.toNat))
      else none := by
  split
  · next hlt => rw [address?_eq_some_iff, UInt64.toNat_ofNat', Nat.mod_eq_of_lt hlt]
  · next hge =>
    refine Option.eq_none_iff_forall_ne_some.2 fun a ha ↦ hge ?_
    rw [← address?_eq_some_iff.1 ha]
    exact a.toNat_lt

end IndexedCodebook
