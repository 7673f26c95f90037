/-!
# Numbers with small residues

`smallResidues` lists the numbers `x` below a bound for which `a * x + u` leaves a remainder of at
most `w` by `m`. It follows Euclid's algorithm: if `a * x + u` is at most `w` above `m * y`, then
`m * y` is at most `w` below it, so `y` solves a problem of the same kind by `a`. The width `w` of
the window stays the same and the modulus gets smaller, until it fits in the window.
-/

namespace IndexedCodebook

/-- The numbers `x < bound` with `(a * x + u) % m ≤ w`, if the fuel is enough. -/
def smallResidues (w : Nat) : (fuel a m u bound : Nat) → List Nat
  | 0, _, _, _, bound => List.range bound
  | fuel + 1, a, m, u, bound =>
      let step := a % m
      let start := u % m
      if m ≤ w + 1 then List.range bound
      else if step = 0 then if start ≤ w then List.range bound else []
      else
        let turns := smallResidues w fuel m step (w + (step - start % step))
          ((step * (bound - 1) + start) / m + 1)
        turns.flatMap fun y ↦
          if m * y + w < start then []
          else
            let first := (m * y - start + (step - 1)) / step
            List.range' first (min ((m * y + w - start) / step + 1) bound - first)

private theorem residue_of_turn {a u m w x y r : Nat} (ha : 0 < a) (hr : r ≤ w)
    (h : m * y + r = a * x + u) : (m * y + (w + (a - u % a))) % a ≤ w := by
  have hmod := Nat.mod_lt u ha
  have hsplit := Nat.div_add_mod u a
  have hsum : m * y + (w + (a - u % a)) = a * (x + u / a + 1) + (w - r) := by
    rw [Nat.mul_add, Nat.mul_add, Nat.mul_one]
    omega
  rw [hsum, Nat.mul_add_mod]
  exact Nat.le_trans (Nat.mod_le ..) (Nat.sub_le w r)

/-- No number with a small residue is missed. -/
theorem mem_smallResidues {w : Nat} (fuel : Nat) {a m u bound x : Nat} (hm : 0 < m)
    (hx : x < bound) (h : (a * x + u) % m ≤ w) : x ∈ smallResidues w fuel a m u bound := by
  induction fuel generalizing a m u bound x with
  | zero => exact List.mem_range.mpr hx
  | succ fuel ih =>
    have hreduced : (a % m * x + u % m) % m ≤ w := by
      rwa [Nat.add_mod, Nat.mod_mul_mod, Nat.mod_mod, ← Nat.add_mod]
    have hstart : u % m < m := Nat.mod_lt u hm
    simp only [smallResidues]
    generalize a % m = step at *
    generalize u % m = start at *
    split
    · exact List.mem_range.mpr hx
    · split
      · next hzero =>
        rw [hzero, Nat.zero_mul, Nat.zero_add, Nat.mod_eq_of_lt hstart] at hreduced
        rw [if_pos hreduced]
        exact List.mem_range.mpr hx
      · next hne =>
        have hstep : 0 < step := Nat.pos_of_ne_zero hne
        -- the multiple of the modulus below `step * x + start` is found in the turned problem
        have hturn := Nat.div_add_mod (step * x + start) m
        generalize hy : (step * x + start) / m = y at *
        generalize (step * x + start) % m = r at *
        have hmem : y ∈ smallResidues w fuel m step (w + (step - start % step))
            ((step * (bound - 1) + start) / m + 1) := by
          refine ih hstep ?_ (residue_of_turn hstep hreduced hturn)
          rw [← hy]
          exact Nat.lt_succ_of_le (Nat.div_le_div_right (Nat.add_le_add_right
            (Nat.mul_le_mul_left step (by omega)) start))
        rw [List.mem_flatMap]
        refine ⟨y, hmem, ?_⟩
        have hfirst : (m * y - start + (step - 1)) / step ≤ x := by
          rw [Nat.div_le_iff_le_mul_add_pred hstep]
          omega
        have hlast : x ≤ (m * y + w - start) / step := by
          rw [Nat.le_div_iff_mul_le hstep, Nat.mul_comm]
          omega
        rw [if_neg (by omega), List.mem_range'_1]
        omega

end IndexedCodebook
