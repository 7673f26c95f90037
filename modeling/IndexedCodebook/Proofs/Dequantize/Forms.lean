import IndexedCodebook.Proofs.Binary.Exact
import IndexedCodebook.Proofs.Dequantize

/-!
# One gather, three finishes

The forms of a dequantization make different things of the same entries. The outcome of the plain
form gives those of the others: to bfloat16 every entry is rounded (`result_dequantizeBFloat`), and
with scales, which are counted after all other checks, every entry is multiplied by the scale of its
group (`result_dequantizeWithScales`).
-/

namespace IndexedCodebook.Addressing

open Outcome

variable {a : Addressing} {indices : Indices} {codebook : Array Single}

/-- To bfloat16 the outcome is that of the plain form, with every entry rounded. -/
theorem result_dequantizeBFloat (a : Addressing) (indices : Indices) (codebook : Array Single) :
    (a.dequantizeBFloat indices codebook).result =
      (a.dequantize indices codebook).result >>= fun output ↦
        .ok (output.map (·.convert bfloat16)) := by
  rw [dequantizeBFloat_eq, dequantize_eq, Traced.result_bind, Traced.result_bind]
  cases (a.begin indices codebook.size).result with
  | error fault => rfl
  | ok shape =>
    rw [ok_bind, ok_bind, Traced.result_ofResult, Traced.result_ofResult, ok_bind, Array.map_map]
    rfl

/-- With scales the outcome is that of the plain form, with the scales counted and every entry
multiplied by the scale of its group. -/
theorem result_dequantizeWithScales (a : Addressing) (indices : Indices)
    (codebook scales : Array Single) :
    (a.dequantizeWithScales indices codebook scales).result =
      (a.dequantize indices codebook).result >>= fun output ↦
        checkScales scales.size indices.rows.size >>= fun _ ↦
          .ok (output.mapIdx fun i entry ↦ entry.mul (a.scaleAt scales i)) := by
  rw [dequantizeWithScales_eq, dequantize_eq, Traced.result_bind, Traced.result_bind]
  cases hb : (a.begin indices codebook.size).result with
  | error fault => rfl
  | ok shape =>
    rw [result_begin] at hb
    obtain ⟨hf, -, rfl⟩ := fits_of_accept_eq_ok hb
    simp only [ok_bind, Traced.result_bind, Traced.result_ofResult, hf.rows_eq]
    congr 2
    funext _
    congr 1
    apply Array.ext
    · simp
    · intro i hi hi'
      simp

private theorem dequantize_ne_scaleCount (a : Addressing) (indices : Indices)
    (codebook : Array Single) (count groups : Nat) :
    (a.dequantize indices codebook).result ≠ .error (.shape (.scaleCount count groups)) := by
  intro h
  rw [dequantize_eq, Traced.result_bind, result_begin] at h
  rcases bind_eq_error_iff.mp h with h | ⟨shape, -, h⟩
  · exact accept_ne_scaleCount a indices codebook.size count groups h
  · cases h

private theorem getElem?_scaleAt {scales output : Array Single} {i : Nat}
    (h : (a.dequantize indices codebook).result = .ok output)
    (hs : scales.size = indices.rows.size) (hi : i < output.size) :
    scales[i / a.groupSize.toNat]? = some (a.scaleAt scales i) := by
  obtain ⟨⟨shape, haccept⟩, rfl⟩ := dequantize_eq_ok_iff.mp h
  obtain ⟨hf, -, -⟩ := fits_of_accept_eq_ok haccept
  have hlt : i / a.groupSize.toNat < scales.size := by
    rw [hs]
    exact hf.div_groupSize_lt (by simpa using hi)
  rw [scaleAt, Array.getD_eq_getD_getElem?, Array.getElem?_eq_getElem hlt, Option.getD_some]

/-- Every entry of an output rounded to the closest bfloat16 word. -/
structure IsRounded (output : Array Single) (rounded : Array BFloat) : Prop where
  size_eq : rounded.size = output.size
  getElem? : ∀ (i : Nat) (entry : Single), output[i]? = some entry →
    rounded[i]? = some (entry.convert bfloat16) ∧ entry.value.RoundsTo (entry.convert bfloat16)

/-- Every entry of an output multiplied by the scale of its group, with the exact product rounded to
the closest word. Scales of `1.0` leave all numbers as they are, bit for bit. -/
structure IsScaled (a : Addressing) (output scales scaled : Array Single) : Prop where
  size_eq : scaled.size = output.size
  getElem? : ∀ (i : Nat) (entry : Single), output[i]? = some entry →
    ∃ scale, scales[i / a.groupSize.toNat]? = some scale ∧ scaled[i]? = some (entry.mul scale) ∧
      (entry.value.mul scale.value).RoundsTo (entry.mul scale)
  one : (∀ scale ∈ scales, scale = Word.ofNat binary32 1) →
    ∀ (i : Nat) (entry : Single), output[i]? = some entry → entry.isNaN = false →
      scaled[i]? = some entry

private theorem dequantizeBFloat_of_eq_ok {output : Array Single}
    (h : (a.dequantize indices codebook).result = .ok output) :
    ∃ rounded, (a.dequantizeBFloat indices codebook).result = .ok rounded ∧
      IsRounded output rounded := by
  rw [result_dequantizeBFloat, h]
  refine ⟨_, rfl, Array.size_map, fun i entry he ↦ ⟨?_, ?_⟩⟩
  · rw [Array.getElem?_map, he, Option.map_some]
  · exact Exact.roundsTo_toWord (by decide) (by decide) entry.value

private theorem dequantizeWithScales_of_eq_ok {output scales : Array Single}
    (h : (a.dequantize indices codebook).result = .ok output)
    (hs : scales.size = indices.rows.size) :
    ∃ scaled, (a.dequantizeWithScales indices codebook scales).result = .ok scaled ∧
      a.IsScaled output scales scaled := by
  have hproduct : ∀ (i : Nat) (entry : Single), output[i]? = some entry →
      (output.mapIdx fun i entry ↦ entry.mul (a.scaleAt scales i))[i]? =
        some (entry.mul (a.scaleAt scales i)) := by
    intro i entry he
    rw [Array.getElem?_mapIdx, he, Option.map_some]
  have hscale : ∀ (i : Nat) (entry : Single), output[i]? = some entry →
      scales[i / a.groupSize.toNat]? = some (a.scaleAt scales i) := by
    intro i entry he
    obtain ⟨hi, -⟩ := Array.getElem?_eq_some_iff.mp he
    exact getElem?_scaleAt h hs hi
  rw [result_dequantizeWithScales, h, ok_bind, checkScales_eq_ok_iff.mpr hs, ok_bind]
  refine ⟨_, rfl, Array.size_mapIdx, fun i entry he ↦ ?_, fun hone i entry he hnan ↦ ?_⟩
  · exact ⟨_, hscale i entry he, hproduct i entry he,
      Exact.roundsTo_toWord (by decide) (by decide) _⟩
  · rw [hproduct i entry he, hone _ (Array.mem_of_getElem? (hscale i entry he)),
      Single.mul_one hnan]

private theorem dequantizeWithScales_eq_scaleCount_iff {scales : Array Single}
    {count groups : Nat} :
    (a.dequantizeWithScales indices codebook scales).result =
        .error (.shape (.scaleCount count groups)) ↔
      (∃ output, (a.dequantize indices codebook).result = .ok output) ∧
        scales.size ≠ indices.rows.size ∧ count = scales.size ∧ groups = indices.rows.size := by
  rw [result_dequantizeWithScales]
  cases h : (a.dequantize indices codebook).result with
  | error fault =>
    have hne := dequantize_ne_scaleCount a indices codebook count groups
    rw [h] at hne
    simpa using hne
  | ok output =>
    rw [ok_bind, bind_ok_eq_error_iff, checkScales_eq_error_iff]
    simp

/-- The forms of a dequantization fail alike. With scales it also fails, after everything else, if
they are not one per group. If the plain form gives an output, the form to bfloat16 gives it
rounded, and the form with one scale per group gives it scaled. -/
theorem forms_finish_one_gather (a : Addressing) (indices : Indices) (codebook : Array Single) :
    (∀ fault, (a.dequantizeBFloat indices codebook).result = .error fault ↔
      (a.dequantize indices codebook).result = .error fault) ∧
    (∀ fault, (a.dequantize indices codebook).result = .error fault → ∀ scales,
      (a.dequantizeWithScales indices codebook scales).result = .error fault) ∧
    (∀ scales : Array Single, ∀ count groups,
      (a.dequantizeWithScales indices codebook scales).result =
          .error (.shape (.scaleCount count groups)) ↔
        (∃ output, (a.dequantize indices codebook).result = .ok output) ∧
          scales.size ≠ indices.rows.size ∧ count = scales.size ∧ groups = indices.rows.size) ∧
    ∀ output, (a.dequantize indices codebook).result = .ok output →
      (∃ rounded, (a.dequantizeBFloat indices codebook).result = .ok rounded ∧
        IsRounded output rounded) ∧
      ∀ scales : Array Single, scales.size = indices.rows.size →
        ∃ scaled, (a.dequantizeWithScales indices codebook scales).result = .ok scaled ∧
          a.IsScaled output scales scaled := by
  refine ⟨fun fault ↦ ?_, fun fault h scales ↦ ?_,
    fun scales count groups ↦ dequantizeWithScales_eq_scaleCount_iff,
    fun output h ↦ ⟨dequantizeBFloat_of_eq_ok h, fun scales hs ↦ ?_⟩⟩
  · rw [result_dequantizeBFloat, bind_ok_eq_error_iff]
  · rw [result_dequantizeWithScales, h, error_bind]
  · exact dequantizeWithScales_of_eq_ok h hs

/-- A tie is rounded to the even word; scales of `1.0` keep an infinity, a subnormal number and a
negative zero; and three scales are refused for two groups. -/
theorem forms_finish_one_gather_two_groups :
    ∃ (rounded : Array BFloat) (scaled : Array Single),
      ((unbounded 2 2).dequantizeBFloat ⟨#[1, 0], #[0, 1, 1, 0]⟩ #[.ofBits 0x80000000, .ofBits 1,
        .ofBits 0xff800000, .ofBits 0x3f808000]).result = .ok rounded ∧
      ((unbounded 2 2).dequantizeWithScales ⟨#[1, 0], #[0, 1, 1, 0]⟩ #[.ofBits 0x80000000,
        .ofBits 1, .ofBits 0xff800000, .ofBits 0x3f808000]
        #[.ofNat binary32 1, .ofNat binary32 1]).result = .ok scaled ∧
      ((unbounded 2 2).dequantizeWithScales ⟨#[1, 0], #[0, 1, 1, 0]⟩ #[.ofBits 0x80000000,
        .ofBits 1, .ofBits 0xff800000, .ofBits 0x3f808000]
        #[.ofNat binary32 1, .ofNat binary32 1, .ofNat binary32 1]).result =
          .error (.shape (.scaleCount 3 2)) ∧
      rounded[1]? = some (Word.ofBits 0x3f80) ∧ scaled[0]? = some (Word.ofBits 0xff800000) ∧
      scaled[2]? = some (Word.ofBits 1) ∧ scaled[3]? = some (Word.ofBits 0x80000000) := by
  have houtput : ((unbounded 2 2).dequantize ⟨#[1, 0], #[0, 1, 1, 0]⟩ #[.ofBits 0x80000000,
      .ofBits 1, .ofBits 0xff800000, .ofBits 0x3f808000]).result =
        .ok #[.ofBits 0xff800000, .ofBits 0x3f808000, .ofBits 1, .ofBits 0x80000000] := rfl
  have htie : (Word.ofBits 0x3f808000 : Single).convert bfloat16 = .ofBits 0x3f80 := by
    decide +kernel
  obtain ⟨-, -, hcount, hgiven⟩ := forms_finish_one_gather (unbounded 2 2)
    ⟨#[1, 0], #[0, 1, 1, 0]⟩
    #[.ofBits 0x80000000, .ofBits 1, .ofBits 0xff800000, .ofBits 0x3f808000]
  obtain ⟨⟨rounded, hrounded, -, hentry⟩, hscales⟩ := hgiven _ houtput
  obtain ⟨scaled, hscaled, -, -, hone⟩ :=
    hscales #[.ofNat binary32 1, .ofNat binary32 1] rfl
  have hkept := hone (by simp)
  refine ⟨rounded, scaled, hrounded, hscaled, ?_, ?_, ?_, ?_, ?_⟩
  · exact (hcount _ 3 2).mpr ⟨⟨_, houtput⟩, by decide, rfl, rfl⟩
  · rw [← htie]
    exact (hentry 1 _ rfl).1
  · exact hkept 0 _ rfl (by decide)
  · exact hkept 2 _ rfl (by decide)
  · exact hkept 3 _ rfl (by decide)

end IndexedCodebook.Addressing
