import Mathlib.Algebra.Group.Nat.Defs
import IndexedCodebook.Random.Draw

/-!
# Which supplies of random words are enough

A draw uses the first fair word of its supply (`draw_cons`), so several draws come to an end exactly
if the supply holds as many fair words as there are draws (`isSome_draws_iff`). They leave what
comes after the words that they used, and do not depend on it (`used_of_draws`). If the number of
values divides `2 ^ 32`, every word is fair.
-/

namespace IndexedCodebook.Random

/-- A draw from `n` values uses this word and does not pass over it. -/
def Fair (n : Nat) (word : UInt32) : Prop := n = 256 ∨ word.toNat * n % 2 ^ 32 ≤ lastFair n

instance (n : Nat) (word : UInt32) : Decidable (Fair n word) := inferInstanceAs (Decidable (_ ∨ _))

/-- The value that a draw from `n` values makes of a word. -/
def valueOf (n : Nat) (word : UInt32) : UInt64 :=
  if n = 256 then .ofNat (word.toNat % 256) else .ofNat (word.toNat * n / 2 ^ 32)

/-- The number of words that draws from `n` values use. -/
def fairCount (n : Nat) (words : List UInt32) : Nat := words.countP (Fair n ·)

variable {n count : Nat} {words rest : List UInt32} {values : List UInt64}

private theorem fairCount_cons (n : Nat) (word : UInt32) (words : List UInt32) :
    fairCount n (word :: words) = fairCount n words + if Fair n word then 1 else 0 := by
  rw [fairCount, List.countP_cons]
  simp only [decide_eq_true_eq, fairCount]

private theorem draw_cons (n : Nat) (word : UInt32) (rest : List UInt32) :
    draw n (word :: rest) = if Fair n word then some (valueOf n word, rest) else draw n rest := by
  by_cases h256 : n = 256
  · simp [draw, Fair, valueOf, h256]
  · simp only [draw, Fair, valueOf, h256, if_false, false_or]

private theorem draws_cons (n count : Nat) (word : UInt32) (rest : List UInt32) :
    draws n (count + 1) (word :: rest) =
      if Fair n word then
        (draws n count rest).map fun (values, words) ↦ (valueOf n word :: values, words)
      else draws n (count + 1) rest := by
  rw [draws, draw_cons]
  split
  · show (draws n count rest >>= fun (values, words) ↦
      pure (valueOf n word :: values, words)) = _
    cases draws n count rest with
    | none => rfl
    | some drawn => rfl
  · rw [draws]

private theorem draws_nil (n count : Nat) : draws n (count + 1) [] = none := rfl

/-- Draws come to an end exactly if the supply holds a fair word for each of them. -/
theorem isSome_draws_iff (n count : Nat) (words : List UInt32) :
    (draws n count words).isSome ↔ count ≤ fairCount n words := by
  induction words generalizing count with
  | nil =>
    cases count with
    | zero => simp [draws]
    | succ count => simp [draws_nil, fairCount]
  | cons word rest ih =>
    cases count with
    | zero => simp [draws]
    | succ count =>
      rw [draws_cons, fairCount_cons]
      by_cases hfair : Fair n word
      · rw [if_pos hfair, if_pos hfair, Option.isSome_map, ih, Nat.succ_le_succ_iff]
      · rw [if_neg hfair, if_neg hfair, ih]
        rfl

/-- Draws use words of which as many are fair as there are draws, and draw the same whatever comes
after these. -/
theorem used_of_draws (h : draws n count words = some (values, rest)) :
    ∃ used, words = used ++ rest ∧ fairCount n used = count ∧
      ∀ more, draws n count (used ++ more) = some (values, more) := by
  induction words generalizing count values with
  | nil =>
    cases count with
    | zero =>
      cases h
      exact ⟨[], rfl, rfl, fun _ ↦ rfl⟩
    | succ count => cases h
  | cons word tail ih =>
    cases count with
    | zero =>
      cases h
      exact ⟨[], rfl, rfl, fun _ ↦ rfl⟩
    | succ count =>
      rw [draws_cons] at h
      split at h
      · next hfair =>
        obtain ⟨⟨values', rest'⟩, hdrawn, he⟩ := Option.map_eq_some_iff.mp h
        cases he
        obtain ⟨used, rfl, hused, hmore⟩ := ih hdrawn
        refine ⟨word :: used, rfl, ?_, fun more ↦ ?_⟩
        · rw [fairCount_cons, if_pos hfair, hused]
        · rw [List.cons_append, draws_cons, if_pos hfair, hmore, Option.map_some]
      · next hfair =>
        obtain ⟨used, rfl, hused, hmore⟩ := ih h
        refine ⟨word :: used, rfl, ?_, fun more ↦ ?_⟩
        · rw [fairCount_cons, if_neg hfair, hused, Nat.add_zero]
        · rw [List.cons_append, draws_cons, if_neg hfair, hmore]

/-- A longer supply gives the same values, and more words are left. -/
theorem draws_append (h : draws n count words = some (values, rest)) (more : List UInt32) :
    draws n count (words ++ more) = some (values, rest ++ more) := by
  obtain ⟨used, rfl, -, hmore⟩ := used_of_draws h
  rw [List.append_assoc, hmore]

private theorem fair_of_dvd (h : n ∣ 2 ^ 32) (word : UInt32) : Fair n word := by
  obtain ⟨k, hk⟩ := h
  have hzero : (2 ^ 32 - n) % n = 0 := by
    rw [hk, ← Nat.mul_sub_one, Nat.mul_mod_right]
  have hlt := Nat.mod_lt (word.toNat * n) (Nat.two_pow_pos 32)
  right
  rw [lastFair, hzero]
  omega

/-- Then a supply is enough if it is long enough. -/
theorem fairCount_of_dvd (h : n ∣ 2 ^ 32) (words : List UInt32) :
    fairCount n words = words.length :=
  List.countP_eq_length.mpr fun word _ ↦ decide_eq_true (fair_of_dvd h word)

/-- A block of the stream has 16 words. -/
theorem length_stream (seed : UInt64) (blocks : Nat) :
    (stream seed blocks).length = 16 * blocks := by
  simp [stream, List.length_flatMap, List.map_const', Nat.mul_comm]

end IndexedCodebook.Random
