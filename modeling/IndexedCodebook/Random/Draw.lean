import IndexedCodebook.Random.ChaCha

/-!
# Uniform draws from random words

A draw from `n` values scales a word to the range; words that would make some values more likely
than others are passed over, so a draw uses one word or more. All 256 values of a byte are drawn
from the low bits of a word. `mem_of_draws` says that every drawn value is below `n`.

Source: `gen_range` of `rand` 0.8 on ranges of bytes, as `quant/synth` 64–69 uses it.
-/

namespace IndexedCodebook.Random

-- A power with a natural exponent is the core library's, also in scope of `Monoid`.
attribute [local instance (20000)] instPowNat

/-- The largest low half of a scaled word that is used: up to it every value is equally likely. -/
def lastFair (n : Nat) : Nat := 2 ^ (32 : Nat) - 1 - (2 ^ (32 : Nat) - n) % n

/-- Draw one of `n` values, at most 256; the result is the value and the words that are left. -/
def draw (n : Nat) : List UInt32 → Option (UInt64 × List UInt32)
  | [] => none
  | word :: rest =>
      if n = 256 then some (.ofNat (word.toNat % 256), rest)
      else
        let scaled := word.toNat * n
        if scaled % 2 ^ (32 : Nat) ≤ lastFair n then some (.ofNat (scaled / 2 ^ (32 : Nat)), rest)
        else draw n rest

/-- Draw several of `n` values in a row. -/
def draws (n : Nat) : Nat → List UInt32 → Option (List UInt64 × List UInt32)
  | 0, words => some ([], words)
  | count + 1, words => do
      let (value, words) ← draw n words
      let (values, words) ← draws n count words
      return (value :: values, words)

/-- A drawn value is one of the `n` values. -/
theorem lt_of_draw {n : Nat} (hn : 0 < n) (hle : n ≤ 256) {words rest : List UInt32} {v : UInt64}
    (h : draw n words = some (v, rest)) : v.toNat < n := by
  induction words with
  | nil => simp [draw] at h
  | cons word tail ih =>
    simp only [draw] at h
    split at h
    · next h256 =>
      cases h
      rw [UInt64.toNat_ofNat', Nat.mod_eq_of_lt (by omega)]
      omega
    · split at h
      · cases h
        have hw := word.toNat_lt
        have hlt : word.toNat * n / 2 ^ (32 : Nat) < n :=
          Nat.div_lt_of_lt_mul (Nat.mul_lt_mul_of_pos_right hw hn)
        rw [UInt64.toNat_ofNat', Nat.mod_eq_of_lt (by omega)]
        exact hlt
      · exact ih h

/-- As many values are drawn as asked for, and all of them are among the `n` values. -/
theorem mem_of_draws {n : Nat} (hn : 0 < n) (hle : n ≤ 256) {count : Nat}
    {words rest : List UInt32} {values : List UInt64}
    (h : draws n count words = some (values, rest)) :
    values.length = count ∧ ∀ v ∈ values, v.toNat < n := by
  induction count generalizing words values with
  | zero =>
    cases h
    simp
  | succ count ih =>
    simp only [draws, Option.bind_eq_bind, Option.bind_eq_some_iff] at h
    obtain ⟨⟨v, ws⟩, hv, ⟨vs, ws'⟩, hvs, he⟩ := h
    cases he
    obtain ⟨hlen, hmem⟩ := ih hvs
    exact ⟨by simp [hlen], by simpa using ⟨lt_of_draw hn hle hv, hmem⟩⟩

end IndexedCodebook.Random
