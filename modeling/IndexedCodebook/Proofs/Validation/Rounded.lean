import IndexedCodebook.Proofs.Validation.RoundTrip

/-!
# Validating rounded outputs

The products of a dequantization with scales and the values of one to bfloat16 are rounded once, and
a validation compares them with references that are exact. Below a power of two that rounding is
bounded, so a tolerance sized for the power raises no false alarm: `scaled_output_validates` and
`bfloat_output_validates`. With the default tolerance that power is `2 ^ 18` for scaled outputs.
-/

namespace IndexedCodebook

open Validation

namespace Addressing

/-- At every position the entry is finite and less than a number in size. -/
structure EntriesBelow (a : Addressing) (indices : Indices) (codebook : Array Single) (x : ℚ) :
    Prop where
  isFinite : ∀ i < indices.cols.size, (a.entryAt indices codebook i).isFinite
  lt : ∀ i < indices.cols.size, |(a.entryAt indices codebook i).toRat| < x

/-- At every position entry and scale are finite, and their exact product is less than a number in
size. -/
structure ProductsBelow (a : Addressing) (indices : Indices) (codebook scales : Array Single)
    (x : ℚ) : Prop where
  isFinite_entry : ∀ i < indices.cols.size, (a.entryAt indices codebook i).isFinite
  isFinite_scale : ∀ i < indices.cols.size, (a.scaleAt scales i).isFinite
  lt : ∀ i < indices.cols.size,
    |(a.entryAt indices codebook i).toRat * (a.scaleAt scales i).toRat| < x

/-- Every position of an output holds a finite word that is no further from an exact number than
`x`. -/
def HoldsNear {f : Format} (output : Array (Word f)) (positions : Nat) (exact : Nat → ℚ) (x : ℚ) :
    Prop :=
  ∀ i < positions, ∃ w, output[i]? = some w ∧ w.isFinite ∧ |w.toRat - exact i| ≤ x

/-- A value no further from its exact reference than the tolerance is within it. -/
theorem HoldsNear.within {f : Format} {output : Array (Word f)} {positions i : Nat}
    {exact : Nat → ℚ} {x : ℚ} {expected : Double} {tolerance : Single}
    (h : HoldsNear output positions exact x) (hf : f.Embeds binary64) (hi : i < positions)
    (hexact : expected.isFinite ∧ expected.toRat = exact i) (ht : tolerance.AtLeast x) :
    within tolerance.toDouble expected
      ((output.getD i (Word.zero false)).convert binary64) = true := by
  obtain ⟨w, hw, hfinite, hnear⟩ := h i hi
  obtain ⟨hwide, hsame⟩ := Word.toRat_convert hf hfinite
  have hget : output.getD i (Word.zero false) = w := by
    rw [Array.getD_eq_getD_getElem?, hw, Option.getD_some]
  rw [hget]
  refine within_of_abs_sub_le hexact.1 hwide (Single.atLeast_toDouble_iff.mpr ht) ?_
  rw [hexact.2, hsame, abs_sub_comm]
  exact hnear

variable {a : Addressing} {indices : Indices} {codebook scales : Array Single}
  {settings : Settings}

/-- On accepted inputs an output as long as the columns has a clean validation if it agrees
everywhere, given room for the samples. -/
theorem validate_clean {f : Format} {output : Array (Word f)} {shape : Shape}
    (hs : (a.accept indices codebook.size).result = .ok shape) (hreserve : settings.Reservable)
    (hout : output.size = indices.cols.size)
    (hall : ∀ i < indices.cols.size,
      (Comparison.ofEntries a indices codebook settings output).Agrees i) :
    ∃ report, (a.validate indices codebook settings output).result = .ok report ∧
      report.Clean indices.cols.size := by
  have haccepted := accepted_ofEntries hs hout settings
  exact ⟨_, validate_eq_ok_of_accepted haccepted hreserve, haccepted.report_clean hall⟩

private theorem validateWithScales_clean {f : Format} {output : Array (Word f)} {shape : Shape}
    (hs : (a.accept indices codebook.size).result = .ok shape) (hreserve : settings.Reservable)
    (hscales : scales.size = indices.rows.size) (hout : output.size = indices.cols.size)
    (hall : ∀ i < indices.cols.size,
      (Comparison.ofProducts a indices codebook scales settings output).Agrees i) :
    ∃ report, (a.validateWithScales indices codebook scales settings output).result =
        .ok report ∧ report.Clean indices.cols.size := by
  have haccepted : (Comparison.ofProducts a indices codebook scales settings output).Accepted :=
    ⟨hout, shape, hs⟩
  exact ⟨_, validateWithScales_eq_ok_iff.mpr ⟨haccepted.fits, hout, hscales, hreserve, rfl⟩,
    haccepted.report_clean hall⟩

private theorem holdsNear_products {k : Int} (hmin : -125 ≤ k) (hmax : k ≤ 127)
    (h : a.ProductsBelow indices codebook scales (2 ^ k)) :
    HoldsNear ((Array.range indices.cols.size).map fun i ↦
        (a.entryAt indices codebook i).mul (a.scaleAt scales i)) indices.cols.size
      (fun i ↦ (a.entryAt indices codebook i).toRat * (a.scaleAt scales i).toRat)
      (2 ^ (k - 25)) := by
  intro i hi
  obtain ⟨hfinite, hnear⟩ := Word.mul_near (by decide) (h.isFinite_entry i hi)
    (h.isFinite_scale i hi) (h.lt i hi) hmin hmax
  exact ⟨_, by simp [hi], hfinite, hnear⟩

private theorem holdsNear_bfloat {k : Int} (hmin : -125 ≤ k) (hmax : k ≤ 127)
    (h : a.EntriesBelow indices codebook (2 ^ k)) :
    HoldsNear ((Array.range indices.cols.size).map fun i ↦
        (a.entryAt indices codebook i).convert bfloat16) indices.cols.size
      (fun i ↦ (a.entryAt indices codebook i).toRat) (2 ^ (k - 9)) := by
  intro i hi
  obtain ⟨hfinite, hnear⟩ := Word.convert_near (g := bfloat16) (by decide) (h.isFinite i hi)
    (h.lt i hi) hmin hmax
  exact ⟨_, by simp [hi], hfinite, hnear⟩

private theorem agrees_products {k : Int} (hmin : -125 ≤ k) (hmax : k ≤ 127)
    (ht : settings.tolerance.AtLeast (2 ^ (k - 25)))
    (h : a.ProductsBelow indices codebook scales (2 ^ k)) {i : Nat} (hi : i < indices.cols.size) :
    (Comparison.ofProducts a indices codebook scales settings
      ((Array.range indices.cols.size).map fun i ↦
        (a.entryAt indices codebook i).mul (a.scaleAt scales i))).Agrees i := by
  have hexact := Single.toRat_mul_toDouble (h.isFinite_entry i hi) (h.isFinite_scale i hi)
  rw [agrees_ofProducts_iff]
  exact (holdsNear_products hmin hmax h).within binary32_embeds_binary64 hi hexact ht

private theorem agrees_bfloat {k : Int} (hmin : -125 ≤ k) (hmax : k ≤ 127)
    (ht : settings.tolerance.AtLeast (2 ^ (k - 9)))
    (h : a.EntriesBelow indices codebook (2 ^ k)) {i : Nat} (hi : i < indices.cols.size) :
    (Comparison.ofEntries a indices codebook settings
      ((Array.range indices.cols.size).map fun i ↦
        (a.entryAt indices codebook i).convert bfloat16)).Agrees i := by
  rw [agrees_ofEntries_iff]
  exact (holdsNear_bfloat hmin hmax h).within bfloat16_embeds_binary64 hi
    (Single.toRat_toDouble (h.isFinite i hi)) ht

private theorem atLeast_default_tolerance :
    ({} : Settings).tolerance.AtLeast (2 ^ (18 - 25 : Int)) := by
  have hvalue : ({} : Settings).tolerance.value = .finite false 0xa3d70a (-30) := by decide
  exact .of_value (by decide) hvalue (by norm_num [Exact.signed])

/-- The output of a dequantization with scales is within `2 ^ (k - 25)` of the exact products where
entries and scales are finite and the products are below `2 ^ k` in size. It then passes its
validation with every tolerance of at least that number, given room for the samples. With the
default tolerance products below `2 ^ 18` are enough. -/
theorem scaled_output_validates (a : Addressing) (indices : Indices)
    (codebook scales output : Array Single)
    (h : (a.dequantizeWithScales indices codebook scales).result = .ok output) :
    (∀ k : Int, -125 ≤ k → k ≤ 127 → a.ProductsBelow indices codebook scales (2 ^ k) →
      HoldsNear output indices.cols.size
        (fun i ↦ (a.entryAt indices codebook i).toRat * (a.scaleAt scales i).toRat)
        (2 ^ (k - 25))) ∧
    (∀ (k : Int) (settings : Settings), settings.Reservable → -125 ≤ k → k ≤ 127 →
      settings.tolerance.AtLeast (2 ^ (k - 25)) →
      a.ProductsBelow indices codebook scales (2 ^ k) →
      ∃ report, (a.validateWithScales indices codebook scales settings output).result =
          .ok report ∧ report.Clean indices.cols.size) ∧
    ∀ maxReported : UInt64, ({ maxReported } : Settings).Reservable →
      a.ProductsBelow indices codebook scales (2 ^ 18) →
      ∃ report, (a.validateWithScales indices codebook scales { maxReported } output).result =
          .ok report ∧ report.Clean indices.cols.size := by
  obtain ⟨⟨shape, hs⟩, hscales, rfl⟩ := dequantizeWithScales_eq_ok_iff.mp h
  refine ⟨fun k hmin hmax ↦ holdsNear_products hmin hmax, ?_, ?_⟩
  · intro k settings hreserve hmin hmax ht hbelow
    exact validateWithScales_clean hs hreserve hscales (by simp) fun i hi ↦
      agrees_products hmin hmax ht hbelow hi
  · intro maxReported hreserve hbelow
    exact validateWithScales_clean hs hreserve hscales (by simp) fun i hi ↦
      agrees_products (k := 18) (by decide) (by decide) atLeast_default_tolerance hbelow hi

/-- The smallest positive tolerance is enough for a product of two factors that is rounded at the
end of the normal numbers. -/
theorem scaled_output_validates_smallest_tolerance :
    ∃ (output : Array Single) (report : Report),
      ((unbounded 1 1).dequantizeWithScales ⟨#[0], #[0]⟩ #[.ofBits 0x00ffffff]
        #[.ofBits 0x3fa00001]).result = .ok output ∧
      (Word.ofBits 1 : Single).AtLeast (2 ^ (-124 - 25 : Int)) ∧
      (unbounded 1 1).ProductsBelow ⟨#[0], #[0]⟩ #[.ofBits 0x00ffffff] #[.ofBits 0x3fa00001]
        (2 ^ (-124 : Int)) ∧
      ((unbounded 1 1).validateWithScales ⟨#[0], #[0]⟩ #[.ofBits 0x00ffffff]
        #[.ofBits 0x3fa00001] ⟨.ofBits 1, 5⟩ output).result = .ok report ∧
      report.passed = true := by
  have hok : ((unbounded 1 1).dequantizeWithScales ⟨#[0], #[0]⟩ #[.ofBits 0x00ffffff]
      #[.ofBits 0x3fa00001]).result = .ok #[.ofBits 0x01200000] :=
    dequantizeWithScales_eq_ok_iff.mpr ⟨⟨⟨1, 1, 1⟩, rfl⟩, rfl, by decide +kernel⟩
  have ht : (Word.ofBits 1 : Single).AtLeast (2 ^ (-124 - 25 : Int)) := by
    have hvalue : (Word.ofBits 1 : Single).value = .finite false 1 (-149) := by decide
    exact .of_value (by decide) hvalue (by norm_num [Exact.signed])
  have hbelow : (unbounded 1 1).ProductsBelow ⟨#[0], #[0]⟩ #[.ofBits 0x00ffffff]
      #[.ofBits 0x3fa00001] (2 ^ (-124 : Int)) := by
    have hentry : (Word.ofBits 0x00ffffff : Single).value = .finite false 0xffffff (-149) := by
      decide
    have hscale : (Word.ofBits 0x3fa00001 : Single).value = .finite false 0xa00001 (-23) := by
      decide
    refine ⟨by decide, by decide, fun i hi ↦ ?_⟩
    obtain rfl : i = 0 := Nat.lt_one_iff.mp hi
    show |Word.toRat (Word.ofBits 0x00ffffff : Single) *
      Word.toRat (Word.ofBits 0x3fa00001 : Single)| < _
    rw [Word.toRat_of_value hentry, Word.toRat_of_value hscale]
    norm_num [Exact.signed]
  obtain ⟨report, hreport, hclean⟩ := (scaled_output_validates _ _ _ _ _ hok).2.1 (-124)
    ⟨.ofBits 1, 5⟩ (by decide) (by decide) (by decide) ht hbelow
  exact ⟨_, report, hok, ht, hbelow, hreport, hclean.passed⟩

/-- The output of a dequantization to bfloat16 is within `2 ^ (k - 9)` of the entries whenever these
are finite and below `2 ^ k` in size. It then passes its validation with every tolerance of at least
that number, given room for the samples. -/
theorem bfloat_output_validates (a : Addressing) (indices : Indices) (codebook : Array Single)
    (output : Array BFloat) (h : (a.dequantizeBFloat indices codebook).result = .ok output)
    (k : Int) (hmin : -125 ≤ k) (hmax : k ≤ 127)
    (hbelow : a.EntriesBelow indices codebook (2 ^ k)) :
    HoldsNear output indices.cols.size (fun i ↦ (a.entryAt indices codebook i).toRat)
      (2 ^ (k - 9)) ∧
    ∀ settings : Settings, settings.Reservable → settings.tolerance.AtLeast (2 ^ (k - 9)) →
      ∃ report, (a.validate indices codebook settings output).result = .ok report ∧
        report.Clean indices.cols.size := by
  obtain ⟨⟨shape, hs⟩, rfl⟩ := dequantizeBFloat_eq_ok_iff.mp h
  refine ⟨holdsNear_bfloat hmin hmax hbelow, fun settings hreserve ht ↦ ?_⟩
  exact validate_clean hs hreserve (by simp) fun i hi ↦ agrees_bfloat hmin hmax ht hbelow hi

/-- A number just below two is rounded up to two, within the tolerance for numbers below two. -/
theorem bfloat_output_validates_carry :
    ∃ (output : Array BFloat) (report : Report),
      ((unbounded 1 1).dequantizeBFloat ⟨#[0], #[0]⟩ #[.ofBits 0x3fffffff]).result =
        .ok output ∧
      output = #[.ofBits 0x4000] ∧
      (Word.ofBits 0x3b800000 : Single).AtLeast (2 ^ (1 - 9 : Int)) ∧
      (unbounded 1 1).EntriesBelow ⟨#[0], #[0]⟩ #[.ofBits 0x3fffffff] (2 ^ (1 : Int)) ∧
      ((unbounded 1 1).validate ⟨#[0], #[0]⟩ #[.ofBits 0x3fffffff] ⟨.ofBits 0x3b800000, 5⟩
        output).result = .ok report ∧
      report.passed = true := by
  have hok : ((unbounded 1 1).dequantizeBFloat ⟨#[0], #[0]⟩ #[.ofBits 0x3fffffff]).result =
      .ok #[.ofBits 0x4000] :=
    dequantizeBFloat_eq_ok_iff.mpr ⟨⟨⟨1, 1, 1⟩, rfl⟩, by decide +kernel⟩
  have ht : (Word.ofBits 0x3b800000 : Single).AtLeast (2 ^ (1 - 9 : Int)) := by
    have hvalue : (Word.ofBits 0x3b800000 : Single).value = .finite false 0x800000 (-31) := by
      decide
    exact .of_value (by decide) hvalue (by norm_num [Exact.signed])
  have hbelow : (unbounded 1 1).EntriesBelow ⟨#[0], #[0]⟩ #[.ofBits 0x3fffffff]
      (2 ^ (1 : Int)) := by
    have hentry : (Word.ofBits 0x3fffffff : Single).value = .finite false 0xffffff (-23) := by
      decide
    refine ⟨by decide, fun i hi ↦ ?_⟩
    obtain rfl : i = 0 := Nat.lt_one_iff.mp hi
    show |Word.toRat (Word.ofBits 0x3fffffff : Single)| < _
    rw [Word.toRat_of_value hentry]
    norm_num [Exact.signed]
  obtain ⟨-, hvalidates⟩ := bfloat_output_validates _ _ _ _ hok 1 (by decide) (by decide) hbelow
  obtain ⟨report, hreport, hclean⟩ := hvalidates ⟨.ofBits 0x3b800000, 5⟩ (by decide) ht
  exact ⟨_, report, hok, rfl, ht, hbelow, hreport, hclean.passed⟩

end Addressing

end IndexedCodebook
