import IndexedCodebook.Proofs.Binary.Conversion
import IndexedCodebook.Proofs.Tensor.Dequantize

/-!
# Dequantizing to bfloat16

A tensor of bfloat16 elements and a dequantization to bfloat16 round the same entries, but the
tensor cast first drops what the double-precision form of an entry has in its low 32 bits. These are
the last bits of the entry (`clearLow_toDouble`), so the two results differ for the entries that lie
just above a tie that goes down, and for no others: `castBFloat_agrees_iff` for one entry,
`bfloat_tensor_agrees_iff_not_just_above_tie` for whole tensors.
-/

namespace IndexedCodebook

namespace Word

variable {f : Format}

/-- A word with its last `k` bits cleared. -/
def clearBits (w : Word f) (k : Nat) : Word f :=
  ⟨w.negative, w.magnitude / 2 ^ k * 2 ^ k,
    Nat.lt_of_le_of_lt (Nat.div_mul_le_self ..) w.magnitude_lt⟩

@[simp] theorem magnitude_clearBits (w : Word f) (k : Nat) :
    (w.clearBits k).magnitude = w.magnitude / 2 ^ k * 2 ^ k := rfl

private theorem isFinite_clearBits {w : Word f} (k : Nat) (h : w.isFinite) :
    (w.clearBits k).isFinite :=
  decide_eq_true (Nat.lt_of_le_of_lt (Nat.div_mul_le_self ..) (of_decide_eq_true h))

private theorem significand_clearBits {w : Word f} {k : Nat} (hk : k ≤ w.significand.log2) :
    (w.clearBits k).significand = w.significand / 2 ^ k * 2 ^ k ∧
      (w.clearBits k).exponent = w.exponent := by
  obtain ⟨t, ht⟩ := Nat.exists_eq_add_of_le' (Nat.le_trans hk w.log2_significand_le)
  have hcut : w.significand / 2 ^ k * 2 ^ k ≤ w.significand := Nat.div_mul_le_self ..
  have hmagnitude : (w.clearBits k).magnitude =
      w.significand / 2 ^ k * 2 ^ k +
        (w.exponent - f.minExponent).toNat * 2 ^ f.fractionBits := by
    rw [magnitude_clearBits, w.magnitude_eq, ht, Nat.pow_add, ← Nat.mul_assoc,
      cut_add_mul _ _ (Nat.two_pow_pos k)]
  have hplace := significand_of_magnitude hmagnitude (by
    rcases w.subnormal_or_normal with ⟨hj, hlt⟩ | ⟨hle, hlt⟩
    · exact .inl ⟨by omega, by omega⟩
    · exact .inr ⟨two_pow_le_cut (by omega) hle, by omega⟩)
  have hmin := w.minExponent_le_exponent
  exact ⟨hplace.1, by omega⟩

end Word

namespace Single

open Word

variable {w : Single}

/-- The last bits that the double-precision form of a word has in its low 32 bits. -/
def droppedBits (w : Single) : Nat := w.significand.log2 - 20

private theorem clear_scaled (m : Nat) (hm : m.log2 ≤ 52) :
    m * 2 ^ (52 - m.log2) / 2 ^ 32 * 2 ^ 32 =
      m / 2 ^ (m.log2 - 20) * 2 ^ (m.log2 - 20) * 2 ^ (52 - m.log2) := by
  rcases Nat.le_total m.log2 20 with hle | hle
  · obtain ⟨k, hk⟩ := Nat.exists_eq_add_of_le' (show 32 ≤ 52 - m.log2 by omega)
    rw [Nat.sub_eq_zero_of_le hle, hk, Nat.pow_add, ← Nat.mul_assoc,
      Nat.mul_div_cancel _ (Nat.two_pow_pos 32), Nat.pow_zero, Nat.div_one, Nat.mul_one,
      ← Nat.mul_assoc]
  · have hk : 2 ^ 32 = 2 ^ (m.log2 - 20) * 2 ^ (52 - m.log2) := by
      rw [← Nat.pow_add]
      congr 1
      omega
    rw [hk, Nat.mul_div_mul_right _ _ (Nat.two_pow_pos _), Nat.mul_assoc]

private theorem clearLow_toDouble (h : w.isFinite) :
    w.toDouble.clearLow = Single.toDouble (w.clearBits (droppedBits w)) := by
  have hk : w.droppedBits ≤ w.significand.log2 := Nat.sub_le ..
  have hfinite := isFinite_clearBits w.droppedBits h
  obtain ⟨hsignificand, hexponent⟩ := significand_clearBits hk
  by_cases hm : w.significand = 0
  · have hm' : (w.clearBits w.droppedBits).significand = 0 := by rw [hsignificand, hm]; simp
    rw [toDouble_eq_zero h hm, toDouble_eq_zero hfinite hm']
    exact Word.ext rfl (show 0 / 2 ^ 32 * 2 ^ 32 = 0 by decide)
  have hlog := log2_cut hm hk
  have hm' : (w.clearBits w.droppedBits).significand ≠ 0 := by
    have hpos := two_pow_le_cut hk (Nat.log2_self_le hm)
    have := Nat.two_pow_pos w.significand.log2
    omega
  apply Word.ext
  · exact (negative_toDouble h).trans (negative_toDouble hfinite).symm
  · have hlow : w.toDouble.clearLow.magnitude = w.toDouble.magnitude / 2 ^ 32 * 2 ^ 32 := rfl
    have hplace : ∀ n : Nat, n * 2 ^ 52 = n * 2 ^ 20 * 2 ^ 32 := by
      intro n
      rw [Nat.mul_assoc, ← Nat.pow_add]
    have hbits : w.significand.log2 ≤ 52 := Nat.le_trans w.log2_significand_le (by decide)
    rw [hlow, magnitude_toDouble h hm, magnitude_toDouble hfinite hm', hsignificand, hexponent,
      hlog, hplace, cut_add_mul _ _ (Nat.two_pow_pos 32), clear_scaled _ hbits, droppedBits]

private theorem castBFloat_of_isFinite (h : w.isFinite) :
    w.castBFloat = saturated w.negative
      (roundDiv (w.magnitude / 2 ^ w.droppedBits * 2 ^ w.droppedBits) (2 ^ 16)) := by
  have hnan : ¬ w.isNaN := by
    have := of_decide_eq_true h
    simp only [isNaN, decide_eq_true_eq]
    omega
  rw [castBFloat, if_neg hnan, clearLow_toDouble h, convert_toDouble]
  exact convert_of_shorter (isFinite_clearBits _ h) rfl rfl (by decide)

/-- A number lies above a tie that goes down by no more than the bits that the tensor cast drops. -/
structure JustAboveTie (w : Single) : Prop where
  finite : w.isFinite
  tie_down : w.magnitude / 2 ^ 16 % 2 = 0
  above : 2 ^ 15 < w.magnitude % 2 ^ 16
  below : w.magnitude % 2 ^ 16 < 2 ^ 15 + 2 ^ w.droppedBits

instance (w : Single) : Decidable w.JustAboveTie :=
  decidable_of_iff (w.isFinite ∧ w.magnitude / 2 ^ 16 % 2 = 0 ∧ 2 ^ 15 < w.magnitude % 2 ^ 16 ∧
      w.magnitude % 2 ^ 16 < 2 ^ 15 + 2 ^ w.droppedBits)
    ⟨fun ⟨hf, hd, ha, hb⟩ ↦ ⟨hf, hd, ha, hb⟩, fun ⟨hf, hd, ha, hb⟩ ↦ ⟨hf, hd, ha, hb⟩⟩

end Single

/-- Bit for bit the same, or both not a number. -/
def BFloat.Agrees (x y : BFloat) : Prop := x = y ∨ x.isNaN ∧ y.isNaN

namespace Single

open Word

variable {w : Single}

private theorem castBFloat_of_not_isFinite (h : ¬ w.isFinite) :
    w.castBFloat = w.convert bfloat16 := by
  by_cases hnan : w.isNaN
  · rw [castBFloat, if_pos hnan, convert, value_of_isNaN hnan, Exact.toWord]
  · have hdouble : w.toDouble = infinite w.negative := by
      rw [toDouble, convert, value_of_not_isFinite hnan h, Exact.toWord]
    have hclear : (infinite w.negative : Double).clearLow = infinite w.negative :=
      Word.ext rfl (show binary64.infinity / 2 ^ 32 * 2 ^ 32 = binary64.infinity by decide)
    rw [castBFloat, if_neg hnan, hdouble, hclear, convert, convert, value_infinite,
      value_of_not_isFinite hnan h]

/-- The tensor cast and the rounding to bfloat16 agree but for the numbers just above a tie. -/
theorem castBFloat_agrees_iff (w : Single) :
    BFloat.Agrees w.castBFloat (w.convert bfloat16) ↔ ¬ w.JustAboveTie := by
  by_cases h : w.isFinite
  · have hlt : w.magnitude < bfloat16.infinity * 2 ^ 16 := of_decide_eq_true h
    have hcut : w.magnitude / 2 ^ w.droppedBits * 2 ^ w.droppedBits ≤ w.magnitude :=
      Nat.div_mul_le_self ..
    have hround : w.convert bfloat16 =
        saturated w.negative (roundDiv w.magnitude (2 ^ 16)) :=
      convert_of_shorter h rfl rfl (by decide)
    have hdropped : w.droppedBits ≤ 15 := by
      have : w.significand.log2 ≤ 23 := w.log2_significand_le
      rw [droppedBits]
      omega
    have htie : roundDiv (w.magnitude / 2 ^ w.droppedBits * 2 ^ w.droppedBits) (2 ^ 16) =
        roundDiv w.magnitude (2 ^ 16) ↔
          ¬ (w.magnitude / 2 ^ 16 % 2 = 0 ∧ 2 ^ 15 < w.magnitude % 2 ^ 16 ∧
            w.magnitude % 2 ^ 16 < 2 ^ 15 + 2 ^ w.droppedBits) :=
      roundDiv_truncate_eq_iff (Nat.two_pow_pos 15) (Nat.pow_dvd_pow 2 hdropped)
    rw [castBFloat_of_isFinite h, hround, BFloat.Agrees, isNaN_saturated,
      saturated_inj (roundDiv_le (Nat.lt_of_le_of_lt hcut hlt)) (roundDiv_le hlt), htie]
    constructor
    · rintro (hnot | ⟨hnan, -⟩)
      · rintro ⟨-, hdown, habove, hbelow⟩
        exact hnot ⟨hdown, habove, hbelow⟩
      · cases hnan
    · intro hnot
      exact .inl fun ⟨hdown, habove, hbelow⟩ ↦ hnot ⟨h, hdown, habove, hbelow⟩
  · have hnot : ¬ w.JustAboveTie := fun htie ↦ h htie.finite
    exact iff_of_true (.inl (castBFloat_of_not_isFinite h)) hnot

end Single

namespace Addressing

/-- If contiguous tensors give a bfloat16 tensor, dequantizing their elements to bfloat16 gives the
nearest word to every entry, ties to even, and the tensor agrees with it at every position but those
whose entry lies just above a tie. -/
theorem bfloat_tensor_agrees_iff_not_just_above_tie (a : Addressing)
    (rows cols codebook out : Tensor) (hrows : rows.Contiguous) (hcols : cols.Contiguous)
    (hcodebook : codebook.Contiguous)
    (hout : (a.dequantizeTensor rows cols codebook .bf16).result = .ok out) :
    ∃ cast rounded : Array BFloat,
      out.elements = .bf16 cast ∧
      (a.dequantizeBFloat ⟨rows.words, cols.words⟩ codebook.singles).result = .ok rounded ∧
      cast.size = cols.words.size ∧ rounded.size = cols.words.size ∧
      ∀ i < cols.words.size, ∃ x y, cast[i]? = some x ∧ rounded[i]? = some y ∧
        y = (a.entryAt ⟨rows.words, cols.words⟩ codebook.singles i).convert bfloat16 ∧
        (BFloat.Agrees x y ↔
          ¬ (a.entryAt ⟨rows.words, cols.words⟩ codebook.singles i).JustAboveTie) := by
  obtain ⟨output, ho, hcast⟩ := (dequantizeTensor_decided a hrows hcols hcodebook).holdsCast hout
  obtain ⟨haccept, rfl⟩ := dequantize_eq_ok_iff.mp ho
  obtain ⟨target, htarget, helements⟩ := hcast.elements_eq
  cases htarget
  refine ⟨_, _, helements, dequantizeBFloat_eq_ok_iff.mpr ⟨haccept, rfl⟩, by simp, by simp, ?_⟩
  intro i hi
  exact ⟨_, _, by simp [hi], by simp [hi], rfl, Single.castBFloat_agrees_iff _⟩

/-- Of a tie that goes down, the number just above it, one just above a tie that goes up and a NaN,
only the second gives different words. -/
theorem bfloat_tensor_agrees_iff_not_just_above_tie_four_entries :
    ∃ (out : Tensor) (cast rounded : Array BFloat),
      ((unbounded 4 4).dequantizeTensor (.ofElements (.u8 #[0]) [1])
        (.ofElements (.u8 #[0, 1, 2, 3]) [2, 2])
        (.ofElements (.f32 #[.ofBits 0x3f808000, .ofBits 0x3f808001, .ofBits 0x3f818001,
          .ofBits 0x7fc00001]) [4]) .bf16).result = .ok out ∧
      out.elements = .bf16 cast ∧
      ((unbounded 4 4).dequantizeBFloat ⟨#[0], #[0, 1, 2, 3]⟩ #[.ofBits 0x3f808000,
        .ofBits 0x3f808001, .ofBits 0x3f818001, .ofBits 0x7fc00001]).result = .ok rounded ∧
      ∀ i < 4, ∃ x y, cast[i]? = some x ∧ rounded[i]? = some y ∧ (BFloat.Agrees x y ↔ i ≠ 1) := by
  have hout : ((unbounded 4 4).dequantizeTensor (.ofElements (.u8 #[0]) [1])
      (.ofElements (.u8 #[0, 1, 2, 3]) [2, 2])
      (.ofElements (.f32 #[.ofBits 0x3f808000, .ofBits 0x3f808001, .ofBits 0x3f818001,
        .ofBits 0x7fc00001]) [4]) .bf16).result = .ok (.ofElements (Target.bf16.cast
          #[.ofBits 0x3f808000, .ofBits 0x3f808001, .ofBits 0x3f818001, .ofBits 0x7fc00001])
          [2, 2]) := by
    with_unfolding_all rfl
  have hrows : (Tensor.ofElements (.u8 #[0]) [1]).words = #[0] := by decide +kernel
  have hcols : (Tensor.ofElements (.u8 #[0, 1, 2, 3]) [2, 2]).words = #[0, 1, 2, 3] := by
    decide +kernel
  have hcodebook : (Tensor.ofElements (.f32 #[.ofBits 0x3f808000, .ofBits 0x3f808001,
      .ofBits 0x3f818001, .ofBits 0x7fc00001]) [4]).singles =
        #[.ofBits 0x3f808000, .ofBits 0x3f808001, .ofBits 0x3f818001, .ofBits 0x7fc00001] := by
    decide +kernel
  have htie : ∀ i < 4, (¬ ((unbounded 4 4).entryAt ⟨#[0], #[0, 1, 2, 3]⟩ #[.ofBits 0x3f808000,
      .ofBits 0x3f808001, .ofBits 0x3f818001, .ofBits 0x7fc00001] i).JustAboveTie) ↔ i ≠ 1 := by
    decide +kernel
  obtain ⟨cast, rounded, hcast, hrounded, -, -, hall⟩ :=
    bfloat_tensor_agrees_iff_not_just_above_tie (unbounded 4 4) _ _ _ _
      (Tensor.contiguous_ofElements (Nat.le_refl _))
      (Tensor.contiguous_ofElements (Nat.le_refl _))
      (Tensor.contiguous_ofElements (Nat.le_refl _)) hout
  rw [hrows, hcols, hcodebook] at hrounded
  rw [hrows, hcols, hcodebook] at hall
  refine ⟨_, cast, rounded, hout, hcast, hrounded, fun i hi ↦ ?_⟩
  obtain ⟨x, y, hx, hy, -, hagree⟩ := hall i hi
  exact ⟨x, y, hx, hy, hagree.trans (htie i hi)⟩

/-- An entry one step above a tie that goes down gives different words, neither of them a NaN. -/
theorem bfloat_tensor_differs_just_above_tie :
    ((unbounded 1 1).dequantizeTensor (.ofElements (.u8 #[0]) [1]) (.ofElements (.u8 #[0]) [1])
      (.ofElements (.f32 #[.ofBits 0x3f808001]) [1]) .bf16).result =
        .ok (.ofElements (.bf16 #[.ofBits 0x3f80]) [1]) ∧
    ((unbounded 1 1).dequantizeBFloat ⟨#[0], #[0]⟩ #[.ofBits 0x3f808001]).result =
      .ok #[.ofBits 0x3f81] ∧
    ¬ BFloat.Agrees (.ofBits 0x3f80) (.ofBits 0x3f81) := by
  have hcast : (Word.ofBits 0x3f808001 : Single).castBFloat = .ofBits 0x3f80 := by decide +kernel
  have hround : (Word.ofBits 0x3f808001 : Single).convert bfloat16 = .ofBits 0x3f81 := by
    decide +kernel
  refine ⟨?_, ?_, ?_⟩
  · rw [← hcast]
    with_unfolding_all rfl
  · rw [← hround]
    rfl
  · rw [BFloat.Agrees]
    decide

end Addressing

end IndexedCodebook
