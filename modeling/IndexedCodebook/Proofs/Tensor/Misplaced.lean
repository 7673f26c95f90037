import IndexedCodebook.Proofs.Safety
import IndexedCodebook.Proofs.Tensor.Contents
import IndexedCodebook.Proofs.Tensor.Dequantize

/-!
# Dequantizing views

A tensor dequantization of views has the outcome of their contents, unless it comes to an argument
that is misplaced: an index tensor, or a single-precision one, that does not lie in row-major order
from the first stored element on. Then it is a stray read, which contents never cause
(`views_dequantized_as_contents_iff`).
-/

namespace IndexedCodebook

open Outcome

/-- Of some arguments, given by whether they are misplaced and by what they are refused for, one is
misplaced and none before it is refused. -/
def ReachesMisplaced : List (Prop × (Fault → Prop)) → Prop
  | [] => False
  | (misplaced, refused) :: later =>
    misplaced ∨ (∀ fault, ¬ refused fault) ∧ ReachesMisplaced later

namespace Traced

variable {α β : Type}

/-- Two outcomes are the same, unless `misplaced` holds: then the first is a stray read without
events. -/
structure SameUnless (misplaced : Prop) (x y : Traced β) : Prop where
  stray : misplaced → x = ⟨.error .stray, []⟩
  same : ¬ misplaced → x = y

/-- Reading one argument in front of others. -/
theorem SameUnless.bind {x y : Except Fault α} {misplaced : Prop} [Decidable misplaced]
    {refused : Fault → Prop} {later : List (Prop × (Fault → Prop))} {f g : α → Traced β}
    (hx : x = if misplaced then .error .stray else y)
    (hy : ∀ fault, y = .error fault ↔ refused fault)
    (h : ∀ v, SameUnless (ReachesMisplaced later) (f v) (g v)) :
    SameUnless (ReachesMisplaced ((misplaced, refused) :: later))
      (ofResult x >>= f) (ofResult y >>= g) := by
  subst hx
  by_cases hmisplaced : misplaced
  · rw [if_pos hmisplaced]
    exact ⟨fun _ ↦ rfl, fun hnone ↦ absurd (.inl hmisplaced) hnone⟩
  · rw [if_neg hmisplaced]
    cases y with
    | error fault =>
      refine ⟨fun hreached ↦ ?_, fun _ ↦ rfl⟩
      obtain hm | ⟨hread, -⟩ := hreached
      · exact absurd hm hmisplaced
      · exact absurd ((hy fault).mp rfl) (hread fault)
    | ok v =>
      have hread : ∀ fault, ¬ refused fault := by
        intro fault hrefused
        cases (hy fault).mpr hrefused
      constructor
      · intro hreached
        obtain hm | ⟨-, hreached⟩ := hreached
        · exact absurd hm hmisplaced
        · rw [bind_of_ok f rfl, (h v).stray hreached]
          rfl
      · intro hnone
        rw [bind_of_ok f rfl, bind_of_ok g rfl, (h v).same fun hl ↦ hnone (.inr ⟨hread, hl⟩)]

private theorem sameUnless_nil {x y : Traced β} (h : x = y) :
    SameUnless (ReachesMisplaced []) x y :=
  ⟨False.elim, fun _ ↦ h⟩

private theorem SameUnless.eq_iff {x y : Traced β} {misplaced : Prop} (h : SameUnless misplaced x y)
    (hy : y.result ≠ .error .stray) : x = y ↔ ¬ misplaced := by
  refine ⟨fun heq hm ↦ hy ?_, h.same⟩
  rw [← heq, h.stray hm]

/-- The first outcome is a stray read exactly if `misplaced` holds. -/
theorem SameUnless.stray_iff {x y : Traced β} {misplaced : Prop} (h : SameUnless misplaced x y)
    (hy : y.result ≠ .error .stray) : x = ⟨.error .stray, []⟩ ↔ misplaced := by
  refine ⟨fun hstray ↦ ?_, h.stray⟩
  by_contra hm
  rw [← h.same hm, hstray] at hy
  exact hy rfl

end Traced

namespace Tensor

variable {t : Tensor} {name : Argument}

private theorem Contiguous.indices_ne_stray (h : t.Contiguous) :
    t.indices name ≠ .error .stray := by
  intro hstray
  cases ((reads_indices h).error_iff _).mp hstray

private theorem Contiguous.values_ne_stray (h : t.Contiguous) : t.values name ≠ .error .stray := by
  intro hstray
  cases ((reads_values h).error_iff _).mp hstray

end Tensor

namespace Addressing

variable {a : Addressing} {rows rows' cols cols' codebook codebook' scales scales' : Tensor}
  {target : ElementType}

private theorem ofType_ne_stray (target : ElementType) : Target.ofType target ≠ .error .stray := by
  intro hstray
  cases Target.ofType_eq_error_iff.mp hstray

/-- Dequantizing contiguous tensors is no stray read. -/
theorem dequantizeTensor_ne_stray (a : Addressing) (target : ElementType)
    (hrows : rows.Contiguous) (hcols : cols.Contiguous) (hcodebook : codebook.Contiguous) :
    (a.dequantizeTensor rows cols codebook target).result ≠ .error .stray := by
  simp only [dequantizeTensor, Traced.result_bind, Traced.result_ofResult]
  refine bind_ne_stray (ofType_ne_stray target) fun _ ↦
    bind_ne_stray hrows.indices_ne_stray fun _ ↦ bind_ne_stray hcols.indices_ne_stray fun _ ↦
      bind_ne_stray hcodebook.values_ne_stray fun _ ↦ ?_
  rw [dequantize_eq, Traced.result_bind, result_begin]
  refine bind_ne_stray (bind_ne_stray (accept_ne_stray a _ _) fun _ h ↦ ?_) fun _ h ↦ ?_
  · cases h
  · cases h

/-- Nor is dequantizing them with scales. -/
theorem dequantizeTensorWithScales_ne_stray (a : Addressing) (target : ElementType)
    (hrows : rows.Contiguous) (hcols : cols.Contiguous) (hcodebook : codebook.Contiguous)
    (hscales : scales.Contiguous) :
    (a.dequantizeTensorWithScales rows cols codebook scales target).result ≠ .error .stray := by
  simp only [dequantizeTensorWithScales, Traced.result_bind, Traced.result_ofResult]
  refine bind_ne_stray (ofType_ne_stray target) fun _ ↦
    bind_ne_stray hrows.indices_ne_stray fun _ ↦ bind_ne_stray hcols.indices_ne_stray fun _ ↦
      bind_ne_stray hcodebook.values_ne_stray fun _ ↦
        bind_ne_stray hscales.values_ne_stray fun _ ↦ ?_
  rw [dequantizeWithScales_eq, Traced.result_bind, result_begin]
  refine bind_ne_stray (bind_ne_stray (accept_ne_stray a _ _) fun shape ↦ ?_) fun _ h ↦ ?_
  · rw [Traced.result_bind]
    refine bind_ne_stray (checkScales_ne_stray _ _) fun _ h ↦ ?_
    cases h
  · cases h

/-- The arguments up to the codebook, in the order in which they are read: whether each is
misplaced, and what its contents are refused for. -/
def readings (rows rows' cols cols' codebook codebook' : Tensor) (target : ElementType) :
    List (Prop × (Fault → Prop)) :=
  [False, rows.MisplacedIndices, cols.MisplacedIndices, codebook.MisplacedValues].zip
    (argumentChecks rows' cols' codebook' target)

/-- Views are dequantized as their contents, unless a misplaced one is reached. -/
theorem dequantizeTensor_sameUnless (a : Addressing) (target : ElementType)
    (hrows : rows.Contents rows') (hcols : cols.Contents cols')
    (hcodebook : codebook.Contents codebook') :
    Traced.SameUnless
      (ReachesMisplaced (readings rows rows' cols cols' codebook codebook' target))
      (a.dequantizeTensor rows cols codebook target)
      (a.dequantizeTensor rows' cols' codebook' target) := by
  refine .bind (if_neg not_false).symm (fun _ ↦ Target.ofType_eq_error_iff) fun _ ↦
    .bind (hrows.indices_eq _) (Tensor.reads_indices hrows.contiguous).error_iff fun _ ↦
      .bind (hcols.indices_eq _) (Tensor.reads_indices hcols.contiguous).error_iff fun _ ↦
        .bind (hcodebook.values_eq _) (Tensor.reads_values hcodebook.contiguous).error_iff fun _ ↦
          Traced.sameUnless_nil ?_
  rw [hcols.shape_eq]

/-- So they are with scales. -/
theorem dequantizeTensorWithScales_sameUnless (a : Addressing) (target : ElementType)
    (hrows : rows.Contents rows') (hcols : cols.Contents cols')
    (hcodebook : codebook.Contents codebook') (hscales : scales.Contents scales') :
    Traced.SameUnless
      (ReachesMisplaced (readings rows rows' cols cols' codebook codebook' target ++
        [(scales.MisplacedValues, scales'.ValuesRefused .scales)]))
      (a.dequantizeTensorWithScales rows cols codebook scales target)
      (a.dequantizeTensorWithScales rows' cols' codebook' scales' target) := by
  refine .bind (if_neg not_false).symm (fun _ ↦ Target.ofType_eq_error_iff) fun _ ↦
    .bind (hrows.indices_eq _) (Tensor.reads_indices hrows.contiguous).error_iff fun _ ↦
      .bind (hcols.indices_eq _) (Tensor.reads_indices hcols.contiguous).error_iff fun _ ↦
        .bind (hcodebook.values_eq _) (Tensor.reads_values hcodebook.contiguous).error_iff fun _ ↦
          .bind (hscales.values_eq _) (Tensor.reads_values hscales.contiguous).error_iff fun _ ↦
            Traced.sameUnless_nil ?_
  rw [hcols.shape_eq]

/-- Every view has contents. A dequantization of views has the outcome of their contents exactly if
it reaches no misplaced view, and is a stray read without events exactly if it reaches one. -/
theorem views_dequantized_as_contents_iff (a : Addressing) (target : ElementType) :
    (∀ t : Tensor, t.IsView → ∃ u, t.Contents u) ∧
    ∀ rows rows' cols cols' codebook codebook' : Tensor, rows.Contents rows' →
      cols.Contents cols' → codebook.Contents codebook' →
      ((a.dequantizeTensor rows cols codebook target =
          a.dequantizeTensor rows' cols' codebook' target ↔
        ¬ ReachesMisplaced (readings rows rows' cols cols' codebook codebook' target)) ∧
      (a.dequantizeTensor rows cols codebook target = ⟨.error .stray, []⟩ ↔
        ReachesMisplaced (readings rows rows' cols cols' codebook codebook' target))) ∧
      ∀ scales scales' : Tensor, scales.Contents scales' →
        (a.dequantizeTensorWithScales rows cols codebook scales target =
            a.dequantizeTensorWithScales rows' cols' codebook' scales' target ↔
          ¬ ReachesMisplaced (readings rows rows' cols cols' codebook codebook' target ++
            [(scales.MisplacedValues, scales'.ValuesRefused .scales)])) ∧
        (a.dequantizeTensorWithScales rows cols codebook scales target = ⟨.error .stray, []⟩ ↔
          ReachesMisplaced (readings rows rows' cols cols' codebook codebook' target ++
            [(scales.MisplacedValues, scales'.ValuesRefused .scales)])) := by
  refine ⟨fun t ht ↦ ht.wellPlaced.exists_contents, ?_⟩
  intro rows rows' cols cols' codebook codebook' hrows hcols hcodebook
  refine ⟨?_, fun scales scales' hscales ↦ ?_⟩
  · have hsame := dequantizeTensor_sameUnless a target hrows hcols hcodebook
    have hcontents := dequantizeTensor_ne_stray a target hrows.contiguous hcols.contiguous
      hcodebook.contiguous
    exact ⟨hsame.eq_iff hcontents, hsame.stray_iff hcontents⟩
  · have hsame := dequantizeTensorWithScales_sameUnless a target hrows hcols hcodebook hscales
    have hcontents := dequantizeTensorWithScales_ne_stray a target hrows.contiguous
      hcols.contiguous hcodebook.contiguous hscales.contiguous
    exact ⟨hsame.eq_iff hcontents, hsame.stray_iff hcontents⟩

/-- A transposed half-precision codebook is read as its contents. Narrowed single-precision scales
are a stray read, but not if a negative row is the fault before them. -/
theorem views_dequantized_as_contents_iff_half_codebook :
    (unbounded 2 2).dequantizeTensor (.ofElements (.u8 #[1, 0]) [2])
        (.ofElements (.u8 #[1, 0, 1, 1]) [4])
        ((Tensor.ofElements (.f16 #[.ofBits 0x3c00, .ofBits 0x4000, .ofBits 0x4200, .ofBits 0x4400])
          [2, 2]).transpose 0 1) .f64 =
      (unbounded 2 2).dequantizeTensor (.ofElements (.u8 #[1, 0]) [2])
        (.ofElements (.u8 #[1, 0, 1, 1]) [4])
        (.ofElements (.f16 #[.ofBits 0x3c00, .ofBits 0x4200, .ofBits 0x4000, .ofBits 0x4400])
          [2, 2]) .f64 ∧
    (unbounded 2 2).dequantizeTensorWithScales (.ofElements (.i32 #[1]) [1])
        (.ofElements (.u8 #[1, 0]) [2])
        (.ofElements (.f32 #[.ofBits 0, .ofBits 1, .ofBits 2, .ofBits 3]) [4])
        ((Tensor.ofElements (.f32 #[.ofBits 0, .ofBits 0x3f800000]) [2]).narrow 0 1 1) .f32 =
      ⟨.error .stray, []⟩ ∧
    (unbounded 2 2).dequantizeTensorWithScales (.ofElements (.i32 #[-1]) [1])
        (.ofElements (.u8 #[1, 0]) [2])
        (.ofElements (.f32 #[.ofBits 0, .ofBits 1, .ofBits 2, .ofBits 3]) [4])
        ((Tensor.ofElements (.f32 #[.ofBits 0, .ofBits 0x3f800000]) [2]).narrow 0 1 1) .f32 =
      (unbounded 2 2).dequantizeTensorWithScales (.ofElements (.i32 #[-1]) [1])
        (.ofElements (.u8 #[1, 0]) [2])
        (.ofElements (.f32 #[.ofBits 0, .ofBits 1, .ofBits 2, .ofBits 3]) [4])
        (.ofElements (.f32 #[.ofBits 0x3f800000]) [1]) .f32 := by
  have hscales : ((Tensor.ofElements (.f32 #[.ofBits 0, .ofBits 0x3f800000]) [2]).narrow 0 1
      1).Contents (.ofElements (.f32 #[.ofBits 0x3f800000]) [1]) :=
    ⟨Tensor.contiguous_ofElements (Nat.le_refl _), rfl, .f32 (by decide +kernel)⟩
  have hcodebook : ((Tensor.ofElements (.f16 #[.ofBits 0x3c00, .ofBits 0x4000, .ofBits 0x4200,
      .ofBits 0x4400]) [2, 2]).transpose 0 1).Contents
        (.ofElements (.f16 #[.ofBits 0x3c00, .ofBits 0x4200, .ofBits 0x4000, .ofBits 0x4400])
          [2, 2]) :=
    ⟨Tensor.contiguous_ofElements (Nat.le_refl _), rfl, .f16 (by decide +kernel)⟩
  have hself : ∀ {elements : Elements} {shape : List Nat}, elements.Hold (Tensor.count shape) →
      (Tensor.ofElements elements shape).Contents (.ofElements elements shape) :=
    fun h ↦ Tensor.contents_self (Tensor.contiguous_ofElements h)
  have htarget : ∀ fault, ¬ Target.Refused .f32 fault := fun fault ⟨htype⟩ ↦ by cases htype
  refine ⟨?_, ?_, ?_⟩
  · refine ((views_dequantized_as_contents_iff (unbounded 2 2) .f64).2 _ _ _ _ _ _
      (hself (Nat.le_refl _)) (hself (Nat.le_refl _)) hcodebook).1.1.mpr ?_
    rintro (hfalse | ⟨-, h | ⟨-, h | ⟨-, h | ⟨-, hfalse⟩⟩⟩⟩)
    · exact hfalse
    · exact absurd h (by decide)
    · exact absurd h (by decide)
    · exact absurd h (by decide)
    · exact hfalse
  · refine (((views_dequantized_as_contents_iff (unbounded 2 2) .f32).2 _ _ _ _ _ _
      (hself (Nat.le_refl _)) (hself (Nat.le_refl _)) (hself (Nat.le_refl _))).2 _ _
      hscales).2.mpr ?_
    exact .inr ⟨htarget, .inr ⟨Tensor.not_indicesRefused rfl (by decide +kernel),
      .inr ⟨Tensor.not_indicesRefused rfl (by decide +kernel),
        .inr ⟨Tensor.not_valuesRefused rfl, .inl ⟨rfl, rfl⟩⟩⟩⟩⟩
  · refine (((views_dequantized_as_contents_iff (unbounded 2 2) .f32).2 _ _ _ _ _ _
      (hself (Nat.le_refl _)) (hself (Nat.le_refl _)) (hself (Nat.le_refl _))).2 _ _
      hscales).1.mpr ?_
    have hnegative : (Tensor.ofElements (.i32 #[-1]) [1]).IndicesRefused .rows
        (.argument .rows (.negativeIndex (-1) 0)) := by
      refine .negative ⟨by decide +kernel, by decide, ?_⟩
      intro i hi
      cases hi
    rintro (hfalse | ⟨-, h | ⟨hread, -⟩⟩)
    · exact hfalse
    · exact absurd h (by decide)
    · exact hread _ hnegative

/-- A single-precision codebook narrowed to all but its first entry is not read, though its contents
are dequantized. -/
theorem narrowed_single_codebook_not_read :
    ((Tensor.ofElements (.f32 #[.ofBits 0x41100000, .ofBits 0x3f800000, .ofBits 0x40000000,
      .ofBits 0x40400000, .ofBits 0x40800000]) [5]).narrow 0 1 4).IsView ∧
    ((Tensor.ofElements (.f32 #[.ofBits 0x41100000, .ofBits 0x3f800000, .ofBits 0x40000000,
      .ofBits 0x40400000, .ofBits 0x40800000]) [5]).narrow 0 1 4).Contents
        (.ofElements (.f32 #[.ofBits 0x3f800000, .ofBits 0x40000000, .ofBits 0x40400000,
          .ofBits 0x40800000]) [4]) ∧
    (unbounded 4 4).dequantizeTensor (.ofElements (.u8 #[0]) [1])
        (.ofElements (.u8 #[0, 1, 2, 3]) [4])
        ((Tensor.ofElements (.f32 #[.ofBits 0x41100000, .ofBits 0x3f800000, .ofBits 0x40000000,
          .ofBits 0x40400000, .ofBits 0x40800000]) [5]).narrow 0 1 4) .f32 =
      ⟨.error .stray, []⟩ ∧
    ((unbounded 4 4).dequantizeTensor (.ofElements (.u8 #[0]) [1])
        (.ofElements (.u8 #[0, 1, 2, 3]) [4])
        (.ofElements (.f32 #[.ofBits 0x3f800000, .ofBits 0x40000000, .ofBits 0x40400000,
          .ofBits 0x40800000]) [4]) .f32).result =
      .ok (.ofElements (.f32 #[.ofBits 0x3f800000, .ofBits 0x40000000, .ofBits 0x40400000,
        .ofBits 0x40800000]) [4]) := by
  refine ⟨.narrow (.ofElements (Nat.le_refl _)) (by decide) (by decide), ?_, rfl, ?_⟩
  · exact ⟨Tensor.contiguous_ofElements (Nat.le_refl _), rfl, .f32 (by decide +kernel)⟩
  · with_unfolding_all rfl

end Addressing

end IndexedCodebook
