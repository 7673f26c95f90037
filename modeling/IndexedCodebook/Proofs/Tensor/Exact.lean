import IndexedCodebook.Proofs.Binary.Exact
import IndexedCodebook.Proofs.Tensor.BFloat

/-!
# Tensors whose values are not rounded

A tensor dequantization brings its values to single precision and then to the target type. Each of
the two casts keeps every value that its format holds (`Word.Kept`, `Elements.kept_values`,
`Target.kept_cast`), the cast to bfloat16 with its cleared bits included
(`Single.same_castBFloat`). So an entry that single precision and the target format hold arrives as
it was: `exact_entries_are_gathered`.
-/

namespace IndexedCodebook

open Outcome

/-- The format of a value type. -/
inductive ElementType.HasFormat : ElementType → Format → Prop
  | f64 : HasFormat .f64 binary64
  | f32 : HasFormat .f32 binary32
  | f16 : HasFormat .f16 binary16
  | bf16 : HasFormat .bf16 bfloat16

/-- The stored words of a value type and their format. -/
inductive Elements.Words : Elements → (f : Format) → Array (Word f) → Prop
  | f64 (xs : Array Double) : Words (.f64 xs) binary64 xs
  | f32 (xs : Array Single) : Words (.f32 xs) binary32 xs
  | f16 (xs : Array Half) : Words (.f16 xs) binary16 xs
  | bf16 (xs : Array BFloat) : Words (.bf16 xs) bfloat16 xs

private theorem binary16_embeds_binary32 : binary16.Embeds binary32 where
  two_le := by decide
  fractionBits := by decide
  minExponent := by decide
  maxExponent := by decide

private theorem bfloat16_embeds_binary32 : bfloat16.Embeds binary32 where
  two_le := by decide
  fractionBits := by decide
  minExponent := by decide
  maxExponent := by decide

namespace Single

open Word

variable {w : Single}

private theorem not_justAboveTie (h : w.HeldBy bfloat16) : ¬ w.JustAboveTie := by
  rintro ⟨hfinite, -, habove, -⟩
  obtain ⟨v, hv⟩ := h
  have hmagnitude : w.magnitude = v.magnitude * 2 ^ 16 :=
    magnitude_of_same rfl rfl (by decide) hv hfinite
  rw [hmagnitude, Nat.mul_mod_left] at habove
  omega

private theorem same_castBFloat (h : w.HeldBy bfloat16) : w.castBFloat.value.Same w.value := by
  have hconvert := h.same_convert (by decide)
  rcases (castBFloat_agrees_iff w).mpr (not_justAboveTie h) with heq | ⟨hcast, hround⟩
  · rw [heq]
    exact hconvert
  · rw [isNaN_eq_of_same hconvert] at hround
    rw [value_of_isNaN hcast, value_of_isNaN hround]
    exact .nan

end Single

namespace Word

variable {f g k : Format} {x : Word f}

/-- A cast keeps the values that its format holds, and all bits in single precision. -/
structure Kept (x : Word f) (y : Word g) : Prop where
  same : x.HeldBy g → y.value.Same x.value
  toBits_eq : f = binary32 → g = binary32 → y.toBits = x.toBits

private theorem kept_convert (hg : 0 < g.fractionBits) (h : f ≠ binary32 ∨ g ≠ binary32) :
    x.Kept (x.convert g) :=
  ⟨fun hheld ↦ hheld.same_convert hg, fun hf hg' ↦ absurd hg' (h.resolve_left (not_not.mpr hf))⟩

private theorem kept_self (x : Word f) : x.Kept x := ⟨fun _ ↦ .refl _, fun _ _ ↦ rfl⟩

/-- What two casts keep one after the other. Half precision, bfloat16 and single precision come back
bit for bit, but for words that are not numbers, of which only single precision keeps the bits. In
double precision all numbers come back that are single-precision numbers widened. -/
structure Carried (x : Word f) (y : Word g) : Prop where
  same : x.isNaN ∨ x.isInfinite ∨ x.HeldBy binary32 ∧ x.HeldBy g → y.value.Same x.value
  back : f = g → f ≠ binary64 → x.isNaN = false ∨ f = binary32 → y.toBits = x.toBits
  widened : f = binary64 → g = binary64 → ∀ s : Single, s.isNaN = false →
    x.toBits = s.toDouble.toBits → y.toBits = s.toDouble.toBits

private theorem Kept.carried {s : Single} {y : Word g} (hx : x.Kept s) (hy : s.Kept y)
    (hf : 0 < f.fractionBits) (hg : 0 < g.fractionBits)
    (hsingle : f ≠ binary64 → x.HeldBy binary32) : x.Carried y := by
  have hsame : x.HeldBy binary32 → x.HeldBy g → y.value.Same x.value := by
    intro h32 hheld
    have hread := hx.same h32
    exact (hy.same (hheld.of_same hread.symm)).trans hread
  refine ⟨?_, ?_, ?_⟩
  · rintro (hnan | hinfinite | ⟨h32, hheld⟩)
    · exact hsame (heldBy_of_isNaN (by decide) hnan) (heldBy_of_isNaN hg hnan)
    · exact hsame (heldBy_of_isInfinite hinfinite) (heldBy_of_isInfinite hinfinite)
    · exact hsame h32 hheld
  · rintro rfl hne (hnan | rfl)
    · have hback := hsame (hsingle hne) x.heldBy_self
      rw [eq_of_same hf hback (isNaN_eq_of_same hback ▸ hnan)]
    · rw [hy.toBits_eq rfl rfl, hx.toBits_eq rfl rfl]
  · rintro rfl rfl single hnan hbits
    have hwide : single.toDouble.value.Same single.value :=
      (heldBy_of_embeds binary32_embeds_binary64 hg single).same_convert hg
    have hx' : x = single.toDouble := by rw [← ofBits_toBits x, hbits, ofBits_toBits]
    have hback := hsame ⟨single, hx' ▸ hwide.symm⟩ x.heldBy_self
    have hnumber : x.isNaN = false := by rw [hx', isNaN_eq_of_same hwide, hnan]
    rw [eq_of_same hf hback (isNaN_eq_of_same hback ▸ hnumber), hbits]

end Word

variable {f g : Format} {stored : Array (Word f)}

private theorem Elements.Words.heldBy_binary32 {elements : Elements} (h : elements.Words f stored) :
    0 < f.fractionBits ∧ (f ≠ binary64 → ∀ x : Word f, x.HeldBy binary32) := by
  cases h with
  | f64 => exact ⟨by decide, fun hne ↦ absurd rfl hne⟩
  | f32 => exact ⟨by decide, fun _ ↦ Word.heldBy_self⟩
  | f16 => exact ⟨by decide, fun _ ↦ Word.heldBy_of_embeds binary16_embeds_binary32 (by decide)⟩
  | bf16 => exact ⟨by decide, fun _ ↦ Word.heldBy_of_embeds bfloat16_embeds_binary32 (by decide)⟩

private theorem Elements.kept_values {t : Tensor} {name : Argument} {singles : Array Single}
    (hstored : t.elements.Words f stored) (h : t.values name = .ok singles) :
    ∃ entries, t.logical stored = .ok entries ∧
      ∀ (i : Nat) (s : Single), singles[i]? = some s → ∃ x, entries[i]? = some x ∧ x.Kept s := by
  obtain ⟨elements, shape, strides, offset⟩ := t
  have hmap : ∀ {k : Format} {entries : Array (Word k)} (i : Nat) (s : Single), k ≠ binary32 →
      (entries.map (·.convert binary32))[i]? = some s → ∃ x, entries[i]? = some x ∧ x.Kept s := by
    intro k entries i s hk hs
    rw [Array.getElem?_map, Option.map_eq_some_iff] at hs
    obtain ⟨x, hx, rfl⟩ := hs
    exact ⟨x, hx, Word.kept_convert (by decide) (.inl hk)⟩
  cases hstored with
  | f64 xs | f16 xs | bf16 xs =>
    simp only [Tensor.values] at h
    cases hl : Tensor.logical ⟨_, shape, strides, offset⟩ xs with
    | error fault =>
      rw [hl] at h
      cases h
    | ok entries =>
      rw [hl] at h
      cases h
      exact ⟨entries, rfl, fun i s hs ↦ hmap i s (by decide) hs⟩
  | f32 =>
    simp only [Tensor.values, Tensor.inPlace] at h
    split at h
    · exact ⟨singles, h, fun i s hs ↦ ⟨s, hs, Word.kept_self s⟩⟩
    · cases h

private theorem Target.kept_cast {type : ElementType} {target : Target} (hg : type.HasFormat g)
    (ht : ofType type = .ok target) (xs : Array Single) :
    ∃ ys : Array (Word g), (target.cast xs).Words g ys ∧ ys.size = xs.size ∧
      ∀ (i : Nat) (s : Single), xs[i]? = some s → ∃ y, ys[i]? = some y ∧ s.Kept y := by
  have hmap : ∀ {k : Format} {cast : Single → Word k} (i : Nat) (s : Single),
      (∀ s : Single, s.Kept (cast s)) → xs[i]? = some s →
        ∃ y, (xs.map cast)[i]? = some y ∧ s.Kept y := by
    intro k cast i s hcast hs
    exact ⟨cast s, by rw [Array.getElem?_map, hs, Option.map_some], hcast s⟩
  cases hg with
  | f64 | f16 =>
    cases ht
    refine ⟨_, by constructor, Array.size_map, fun i s ↦ hmap i s fun s ↦ ?_⟩
    exact Word.kept_convert (by decide) (.inr (by decide))
  | f32 =>
    cases ht
    exact ⟨xs, by constructor, rfl, fun i s hs ↦ ⟨s, hs, Word.kept_self s⟩⟩
  | bf16 =>
    cases ht
    refine ⟨_, by constructor, Array.size_map, fun i s ↦ hmap i s fun s ↦ ?_⟩
    exact ⟨Single.same_castBFloat, fun _ h ↦ absurd h (by decide)⟩

namespace Addressing

/-- If tensors with contiguous indices give a tensor, every position of it holds what two casts
carry of the codebook entry at its exact address: entries that single precision and the target
format hold arrive as they are. -/
theorem exact_entries_are_gathered (a : Addressing) (rows cols codebook out : Tensor)
    (target : ElementType) (hrows : rows.Contiguous) (hcols : cols.Contiguous)
    (hstored : codebook.elements.Words f stored) (hg : target.HasFormat g)
    (hout : (a.dequantizeTensor rows cols codebook target).result = .ok out) :
    ∃ (entries : Array (Word f)) (output : Array (Word g)),
      codebook.logical stored = .ok entries ∧ out.elements.Words g output ∧
      out.shape = cols.shape ∧ output.size = cols.words.size ∧
      ∀ i < cols.words.size, ∃ x y,
        entries[a.addressAt ⟨rows.words, cols.words⟩ i]? = some x ∧ output[i]? = some y ∧
          x.Carried y := by
  simp only [dequantizeTensor, Traced.result_bind, Traced.result_ofResult,
    Traced.result_pure] at hout
  obtain ⟨cast, ht, hout⟩ := bind_eq_ok_iff.mp hout
  obtain ⟨rowValues, hr, hout⟩ := bind_eq_ok_iff.mp hout
  obtain ⟨colValues, hc, hout⟩ := bind_eq_ok_iff.mp hout
  obtain ⟨singles, hs, hout⟩ := bind_eq_ok_iff.mp hout
  obtain ⟨values, hv, hout⟩ := bind_eq_ok_iff.mp hout
  cases hout
  rw [(Tensor.reads_indices hrows).ok_eq _ hr, (Tensor.reads_indices hcols).ok_eq _ hc] at hv
  obtain ⟨⟨shape, haccept⟩, rfl⟩ := dequantize_eq_ok_iff.mp hv
  obtain ⟨-, hreach, -⟩ := fits_of_accept_eq_ok haccept
  obtain ⟨entries, hlogical, hread⟩ := Elements.kept_values hstored hs
  obtain ⟨output, hwords, hsize, hcast⟩ := Target.kept_cast hg ht
    ((Array.range cols.words.size).map (a.entryAt ⟨rows.words, cols.words⟩ singles))
  obtain ⟨hf, hsingle⟩ := hstored.heldBy_binary32
  refine ⟨entries, output, hlogical, hwords, rfl, by simpa using hsize, fun i hi ↦ ?_⟩
  obtain ⟨x, hx, hxs⟩ := hread _ _ (getElem?_addressAt (hreach i hi).1.address_lt)
  obtain ⟨y, hy, hsy⟩ := hcast i (a.entryAt ⟨rows.words, cols.words⟩ singles i) (by simp [hi])
  have hfraction : 0 < g.fractionBits := hwords.heldBy_binary32.1
  exact ⟨x, y, hx, hy, hxs.carried hsy hf hfraction fun hne ↦ hsingle hne x⟩

/-- The smallest half-precision number, a negative zero, a NaN and an infinity arrive in bfloat16,
where the first is not subnormal. -/
theorem exact_entries_are_gathered_half :
    ∃ (out : Tensor) (output : Array BFloat),
      ((unbounded 4 4).dequantizeTensor (.ofElements (.u8 #[0]) [1])
        (.ofElements (.u8 #[0, 1, 2, 3]) [2, 2])
        (.ofElements (.f16 #[.ofBits 1, .ofBits 0x8000, .ofBits 0x7e01, .ofBits 0xfc00]) [4])
        .bf16).result = .ok out ∧
      out.elements.Words bfloat16 output ∧ output[0]? = some (Word.ofBits 0x3380) ∧
      output[1]? = some (Word.ofBits 0x8000) ∧ (∃ y, output[2]? = some y ∧ y.isNaN) ∧
      output[3]? = some (Word.ofBits 0xff80) := by
  have hout : ∃ out, ((unbounded 4 4).dequantizeTensor (.ofElements (.u8 #[0]) [1])
      (.ofElements (.u8 #[0, 1, 2, 3]) [2, 2])
      (.ofElements (.f16 #[.ofBits 1, .ofBits 0x8000, .ofBits 0x7e01, .ofBits 0xfc00]) [4])
      .bf16).result = .ok out := ⟨_, by with_unfolding_all rfl⟩
  have hlogical : (Tensor.ofElements (.f16 #[.ofBits 1, .ofBits 0x8000, .ofBits 0x7e01,
      .ofBits 0xfc00]) [4]).logical #[.ofBits 1, .ofBits 0x8000, .ofBits 0x7e01, .ofBits 0xfc00] =
        .ok (#[.ofBits 1, .ofBits 0x8000, .ofBits 0x7e01, .ofBits 0xfc00] : Array Half) :=
    Tensor.logical_eq_ok (by decide) (Nat.le_refl _)
  obtain ⟨out, hout⟩ := hout
  obtain ⟨entries, output, hentries, hwords, -, -, hall⟩ :=
    exact_entries_are_gathered (unbounded 4 4) _ _ _ out .bf16
      (Tensor.contiguous_ofElements (Nat.le_refl _)) (Tensor.contiguous_ofElements (Nat.le_refl _))
      (Elements.Words.f16 _) .bf16 hout
  cases hlogical.symm.trans hentries
  have hrows : (Tensor.ofElements (.u8 #[0]) [1]).words = #[0] := by decide +kernel
  have hcols : (Tensor.ofElements (.u8 #[0, 1, 2, 3]) [2, 2]).words = #[0, 1, 2, 3] := by
    decide +kernel
  have haddress : ∀ i < 4, (unbounded 4 4).addressAt ⟨#[0], #[0, 1, 2, 3]⟩ i = i := by
    decide +kernel
  rw [hrows, hcols] at hall
  -- an entry that has the value of a bfloat16 word arrives as one that has it
  have harrives : ∀ i < 4, ∀ (x : Half) (v : BFloat),
      (#[.ofBits 1, .ofBits 0x8000, .ofBits 0x7e01, .ofBits 0xfc00] : Array Half)[i]? = some x →
      v.value.Same x.value → ∃ y, output[i]? = some y ∧ y.value.Same v.value := by
    intro i hi x v hx hv
    obtain ⟨x', y, hx', hy, hcarried⟩ := hall i hi
    rw [haddress i hi, hx] at hx'
    cases hx'
    have hsingle : x.HeldBy binary32 :=
      Word.heldBy_of_embeds binary16_embeds_binary32 (by decide) x
    exact ⟨y, hy, (hcarried.same (.inr (.inr ⟨hsingle, v, hv⟩))).trans hv.symm⟩
  obtain ⟨y₀, h₀, hsame₀⟩ := harrives 0 (by decide) _ (.ofBits 0x3380) rfl (by
    have hhalf : (Word.ofBits 1 : Half).value = .finite false 1 (-24) := by decide +kernel
    have hbfloat : (Word.ofBits 0x3380 : BFloat).value = .finite false 128 (-31) := by
      decide +kernel
    rw [hbfloat]
    exact hhalf ▸ .finite (by norm_num))
  obtain ⟨y₁, h₁, hsame₁⟩ := harrives 1 (by decide) _ (.ofBits 0x8000) rfl (by
    have hhalf : (Word.ofBits 0x8000 : Half).value = .finite true 0 (-24) := by decide +kernel
    have hbfloat : (Word.ofBits 0x8000 : BFloat).value = .finite true 0 (-133) := by
      decide +kernel
    rw [hbfloat]
    exact hhalf ▸ .finite (by norm_num))
  obtain ⟨y₂, h₂, hsame₂⟩ := harrives 2 (by decide) _ Word.nan rfl .nan
  obtain ⟨y₃, h₃, hsame₃⟩ := harrives 3 (by decide) _ (.ofBits 0xff80) rfl (.infinite true)
  refine ⟨out, output, hout, hwords, ?_, ?_, ⟨y₂, h₂, ?_⟩, ?_⟩
  · rw [h₀, ← Word.eq_of_same (by decide) hsame₀.symm (by decide)]
  · rw [h₁, ← Word.eq_of_same (by decide) hsame₁.symm (by decide)]
  · rw [Word.isNaN_eq_of_same hsame₂]
    decide
  · rw [h₃, ← Word.eq_of_same (by decide) hsame₃.symm (by decide)]

end Addressing

end IndexedCodebook
