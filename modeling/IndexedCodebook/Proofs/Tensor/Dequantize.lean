import IndexedCodebook.Proofs.Binary.Closest
import IndexedCodebook.Proofs.Dequantize
import IndexedCodebook.Proofs.Tensor.Contiguous
import IndexedCodebook.Tensor.Dequantize

/-!
# Dequantizing contiguous tensors

The arguments of a tensor dequantization are checked one after the other, then their elements in
row-major order are dequantized. `contiguous_tensors_decided_by_first_fault` says which fault
decides and what a tensor dequantization gives if there is none. It follows that index types, and
the shapes of all tensors but the columns, do not matter to the outcome.
-/

namespace IndexedCodebook

open Outcome

/-- A target type is refused if values cannot be cast to it. -/
inductive Target.Refused (type : ElementType) : Fault → Prop
  | type (h : type.isValue = false) :
      Refused type (.argument .targetType (.targetNotFloat type))

/-- The target types are the value types. -/
theorem Target.ofType_eq_error_iff {type : ElementType} {fault : Fault} :
    ofType type = .error fault ↔ Refused type fault := by
  constructor
  · intro h
    cases type with
    | f64 | f32 | f16 | bf16 => cases h
    | _ =>
      cases h
      exact .type rfl
  · rintro ⟨h⟩
    cases type with
    | f64 | f32 | f16 | bf16 => cases h
    | _ => rfl

private theorem Target.type_cast {type : ElementType} {target : Target}
    (h : ofType type = .ok target) (xs : Array Single) : (target.cast xs).type = type := by
  cases type with
  | f64 | f32 | f16 | bf16 =>
    cases h
    rfl
  | _ => cases h

private theorem Target.hold_cast (target : Target) (xs : Array Single) :
    (target.cast xs).Hold xs.size := by
  cases target with
  | f64 | f16 | bf16 => exact Nat.le_of_eq Array.size_map.symm
  | f32 => exact Nat.le_refl _

/-- As many words as there are values, each closest to an exact number that is made of its value. -/
structure RoundsEach {f : Format} (exact : Single → Exact) (values : Array Single)
    (xs : Array (Word f)) : Prop where
  size_eq : xs.size = values.size
  roundsTo : ∀ (i : Nat) (v : Single), values[i]? = some v →
    ∃ x, xs[i]? = some x ∧ (exact v).RoundsTo x

/-- Elements that are values rounded to their format. The number that is rounded to bfloat16 is the
double-precision form of a value without its low 32 bits. -/
def Elements.AreRounded (values : Array Single) : Elements → Prop
  | f64 xs => RoundsEach Word.value values xs
  | f32 xs => xs = values
  | f16 xs => RoundsEach Word.value values xs
  | bf16 xs => RoundsEach (fun v ↦ v.toDouble.clearLow.value) values xs
  | u32 _ | u8 _ | i32 _ | other _ => False

private theorem roundsEach_map {f : Format} {exact : Single → Exact} {round : Single → Word f}
    (h : ∀ v, (exact v).RoundsTo (round v)) (values : Array Single) :
    RoundsEach exact values (values.map round) := by
  refine ⟨Array.size_map, fun i v hv ↦ ⟨round v, ?_, h v⟩⟩
  rw [Array.getElem?_map, hv, Option.map_some]

private theorem Single.roundsTo_castBFloat (v : Single) :
    (v.toDouble.clearLow.value).RoundsTo (Word.castBFloat v) := by
  rw [Word.castBFloat]
  split
  · next hnan =>
    have hdouble : v.toDouble = Word.nan := by
      rw [Single.toDouble, Word.convert, Word.value_of_isNaN hnan, Exact.toWord]
    have hclear : (Word.nan : Double).clearLow.isNaN = true := by decide
    rw [hdouble, Word.value_of_isNaN hclear]
    exact Word.isNaN_toWord_nan (f := bfloat16) (by decide)
  · exact Exact.roundsTo_toWord (by decide) (by decide) _

/-- A cast rounds values to the format of its target. -/
theorem Target.areRounded_cast (target : Target) (values : Array Single) :
    (target.cast values).AreRounded values := by
  cases target with
  | f64 => exact roundsEach_map (fun _ ↦ Exact.roundsTo_toWord (by decide) (by decide) _) values
  | f32 => rfl
  | f16 => exact roundsEach_map (fun _ ↦ Exact.roundsTo_toWord (by decide) (by decide) _) values
  | bf16 => exact roundsEach_map Single.roundsTo_castBFloat values

namespace Tensor

variable {t u : Tensor}

private theorem size_words (h : t.Contiguous) (ht : t.elements.type.isIndex) :
    t.words.size = count t.shape := by
  have hstored := h.stored
  cases he : t.elements with
  | u8 xs | u32 xs | i32 xs =>
    rw [he] at hstored
    have hs : count t.shape ≤ xs.size := hstored
    simp [words, integers, Elements.integers, he, hs]
  | f64 | f32 | f16 | bf16 =>
    rw [he] at ht
    cases ht
  | other type =>
    rw [he] at hstored ht
    have hnot : type.isIndex = false := hstored.1
    exact absurd ht (by simp [Elements.type, hnot])

/-- A contiguous tensor with the same integers, whatever the index types and the shapes. -/
structure SameIntegers (t u : Tensor) : Prop where
  contiguous : u.Contiguous
  types : t.elements.type.isIndex ∧ u.elements.type.isIndex
  integers : t.integers = u.integers

/-- A contiguous tensor with the same single-precision values, whatever the value types and the
shapes. -/
structure SameSingles (t u : Tensor) : Prop where
  contiguous : u.Contiguous
  types : t.elements.type.isValue ∧ u.elements.type.isValue
  singles : t.singles = u.singles

/-- The same integers are read alike. -/
theorem SameIntegers.indices_eq (h : SameIntegers t u) (ht : t.Contiguous) (name : Argument) :
    t.indices name = u.indices name := by
  have hwords : t.words = u.words := by rw [words, words, h.integers]
  have hu : Reads (u.indices name) (u.IndicesRefused name) t.words := by
    rw [hwords]
    exact reads_indices h.contiguous
  refine (reads_indices ht).eq hu fun fault ↦ ?_
  rw [indicesRefused_iff h.types.1, indicesRefused_iff h.types.2, h.integers]

/-- The same values are read alike. -/
theorem SameSingles.values_eq (h : SameSingles t u) (ht : t.Contiguous) (name : Argument) :
    t.values name = u.values name := by
  rw [(reads_values ht).eq_ok (not_valuesRefused h.types.1),
    (reads_values h.contiguous).eq_ok (not_valuesRefused h.types.2), h.singles]

/-- A contiguous tensor of a type and a shape, whose elements are some values cast to the type. -/
structure HoldsCast (t : Tensor) (values : Array Single) (type : ElementType)
    (shape : List Nat) : Prop where
  contiguous : t.Contiguous
  type_eq : t.elements.type = type
  shape_eq : t.shape = shape
  size_eq : values.size = count shape
  elements_eq : ∃ target, Target.ofType type = .ok target ∧ t.elements = target.cast values
  areRounded : t.elements.AreRounded values

private theorem holdsCast_ofElements {type : ElementType} {target : Target} {values : Array Single}
    {shape : List Nat} (h : Target.ofType type = .ok target) (hsize : values.size = count shape) :
    (ofElements (target.cast values) shape).HoldsCast values type shape := by
  have hold := Target.hold_cast target values
  rw [hsize] at hold
  exact ⟨contiguous_ofElements hold, Target.type_cast h values, rfl, hsize, ⟨target, h, rfl⟩,
    target.areRounded_cast values⟩

end Tensor

namespace Addressing

variable {rows cols codebook scales : Tensor} {target : ElementType}

/-- What the arguments are refused for, in the order of the checks. -/
def argumentChecks (rows cols codebook : Tensor) (target : ElementType) : List (Fault → Prop) :=
  [Target.Refused target, rows.IndicesRefused .rows, cols.IndicesRefused .cols,
    codebook.ValuesRefused .codebook]

/-- The first check that fails decides the outcome of a tensor dequantization: those of the
arguments come first, then those of dequantizing their elements. If none fails, the outcome holds
the dequantized values, cast to the target type, in a shape. -/
structure DecidedByFirstFault (result : Except Fault Tensor) (arguments : List (Fault → Prop))
    (values : Except Fault (Array Single)) (target : ElementType) (shape : List Nat) : Prop where
  refused : ∀ fault, result = .error fault ↔
    FirstFault (arguments ++ [fun fault ↦ values = .error fault]) fault
  given : (∀ check ∈ arguments, ∀ fault, ¬ check fault) → ∀ output, values = .ok output →
    ∃ t : Tensor, result = .ok t ∧ t.HoldsCast output target shape

/-- An outcome that is a tensor holds dequantized values. -/
theorem DecidedByFirstFault.holdsCast {result : Except Fault Tensor}
    {arguments : List (Fault → Prop)} {values : Except Fault (Array Single)} {shape : List Nat}
    {t : Tensor} (h : DecidedByFirstFault result arguments values target shape)
    (ht : result = .ok t) :
    ∃ output, values = .ok output ∧ t.HoldsCast output target shape := by
  have hnone : ∀ fault, ¬ FirstFault (arguments ++ [fun fault ↦ values = .error fault]) fault := by
    intro fault hf
    have herror := (h.refused fault).mpr hf
    rw [ht] at herror
    cases herror
  obtain ⟨harguments, hvalues⟩ :=
    List.forall_mem_append.mp (forall_not_of_not_firstFault hnone)
  rw [List.forall_mem_singleton] at hvalues
  cases values with
  | error fault => exact absurd rfl (hvalues fault)
  | ok output =>
    obtain ⟨t', ht', hcast⟩ := h.given harguments output rfl
    rw [ht] at ht'
    cases ht'
    exact ⟨output, rfl, hcast⟩

private theorem forall_argumentChecks_iff :
    (∀ check ∈ argumentChecks rows cols codebook target, ∀ fault, ¬ check fault) ↔
      (∀ fault, ¬ Target.Refused target fault) ∧ (∀ fault, ¬ rows.IndicesRefused .rows fault) ∧
        (∀ fault, ¬ cols.IndicesRefused .cols fault) ∧
        ∀ fault, ¬ codebook.ValuesRefused .codebook fault := by
  simp [argumentChecks]

/-- Read the arguments of a tensor dequantization and go on with them. -/
def withArguments {β : Type} (rows cols codebook : Tensor) (target : ElementType)
    (next : Target → Indices → Array Single → Except Fault β) : Except Fault β := do
  let target ← Target.ofType target
  let rowValues ← rows.indices .rows
  let colValues ← cols.indices .cols
  let entries ← codebook.values .codebook
  next target ⟨rowValues, colValues⟩ entries

section Arguments

variable {β : Type} {next : Target → Indices → Array Single → Except Fault β}

/-- The checks of the arguments come in front of the others. -/
theorem withArguments_eq_error_iff {later : List (Fault → Prop)} (hrows : rows.Contiguous)
    (hcols : cols.Contiguous) (hcodebook : codebook.Contiguous)
    (h : ∀ t fault, next t ⟨rows.words, cols.words⟩ codebook.singles = .error fault ↔
      FirstFault later fault) (fault : Fault) :
    withArguments rows cols codebook target next = .error fault ↔
      FirstFault (argumentChecks rows cols codebook target ++ later) fault := by
  apply bind_eq_error_iff_firstFault fun _ ↦ Target.ofType_eq_error_iff
  intro t _
  apply bind_eq_error_iff_firstFault (Tensor.reads_indices hrows).error_iff
  intro rowValues hr
  apply bind_eq_error_iff_firstFault (Tensor.reads_indices hcols).error_iff
  intro colValues hc
  apply bind_eq_error_iff_firstFault (Tensor.reads_values hcodebook).error_iff
  intro entries he
  rw [(Tensor.reads_indices hrows).ok_eq _ hr, (Tensor.reads_indices hcols).ok_eq _ hc,
    (Tensor.reads_values hcodebook).ok_eq _ he]
  exact h t

private theorem withArguments_eq (hrows : rows.Contiguous) (hcols : cols.Contiguous)
    (hcodebook : codebook.Contiguous)
    (hnone : ∀ check ∈ argumentChecks rows cols codebook target, ∀ fault, ¬ check fault) :
    ∃ t, Target.ofType target = .ok t ∧
      withArguments rows cols codebook target next =
        next t ⟨rows.words, cols.words⟩ codebook.singles := by
  obtain ⟨htarget, hr, hc, he⟩ := forall_argumentChecks_iff.mp hnone
  cases ht : Target.ofType target with
  | error fault => exact absurd (Target.ofType_eq_error_iff.mp ht) (htarget fault)
  | ok t =>
    refine ⟨t, rfl, ?_⟩
    rw [withArguments, ht, (Tensor.reads_indices hrows).eq_ok hr,
      (Tensor.reads_indices hcols).eq_ok hc, (Tensor.reads_values hcodebook).eq_ok he]
    rfl

end Arguments

private theorem size_words_of_not_refused (hcols : cols.Contiguous)
    (hnone : ∀ fault, ¬ cols.IndicesRefused .cols fault) :
    cols.words.size = Tensor.count cols.shape := by
  cases ht : cols.elements.type.isIndex with
  | false => exact absurd (.type ht) (hnone _)
  | true => exact Tensor.size_words hcols ht

/-- The outcome of a tensor dequantization without scales is decided by its first fault. -/
theorem dequantizeTensor_decided (a : Addressing) (hrows : rows.Contiguous)
    (hcols : cols.Contiguous) (hcodebook : codebook.Contiguous) :
    DecidedByFirstFault (a.dequantizeTensor rows cols codebook target).result
      (argumentChecks rows cols codebook target)
      (a.dequantize ⟨rows.words, cols.words⟩ codebook.singles).result target cols.shape := by
  have hresult : (a.dequantizeTensor rows cols codebook target).result =
      withArguments rows cols codebook target fun t indices entries ↦
        (a.dequantize indices entries).result >>= fun output ↦
          .ok (.ofElements (t.cast output) cols.shape) := by
    simp only [dequantizeTensor, Traced.result_bind, Traced.result_ofResult, Traced.result_pure]
    rfl
  rw [hresult]
  constructor
  · apply withArguments_eq_error_iff hrows hcols hcodebook
    intro t fault
    rw [bind_ok_eq_error_iff, firstFault_singleton]
  · intro hnone output ho
    obtain ⟨t, ht, harguments⟩ := withArguments_eq hrows hcols hcodebook hnone
    rw [harguments, ho]
    refine ⟨_, rfl, Tensor.holdsCast_ofElements ht ?_⟩
    obtain ⟨-, rfl⟩ := dequantize_eq_ok_iff.mp ho
    rw [Array.size_map, Array.size_range]
    exact size_words_of_not_refused hcols (forall_argumentChecks_iff.mp hnone).2.2.1

/-- The outcome of a tensor dequantization with scales is decided by its first fault. -/
theorem dequantizeTensorWithScales_decided (a : Addressing) (hrows : rows.Contiguous)
    (hcols : cols.Contiguous) (hcodebook : codebook.Contiguous) (hscales : scales.Contiguous) :
    DecidedByFirstFault (a.dequantizeTensorWithScales rows cols codebook scales target).result
      (argumentChecks rows cols codebook target ++ [scales.ValuesRefused .scales])
      (a.dequantizeWithScales ⟨rows.words, cols.words⟩ codebook.singles scales.singles).result
      target cols.shape := by
  have hresult : (a.dequantizeTensorWithScales rows cols codebook scales target).result =
      withArguments rows cols codebook target fun t indices entries ↦
        scales.values .scales >>= fun factors ↦
          (a.dequantizeWithScales indices entries factors).result >>= fun output ↦
            .ok (.ofElements (t.cast output) cols.shape) := by
    simp only [dequantizeTensorWithScales, Traced.result_bind, Traced.result_ofResult,
      Traced.result_pure]
    rfl
  rw [hresult]
  constructor
  · rw [List.append_assoc, List.singleton_append]
    apply withArguments_eq_error_iff hrows hcols hcodebook
    intro t
    apply bind_eq_error_iff_firstFault (Tensor.reads_values hscales).error_iff
    intro factors hf fault
    rw [(Tensor.reads_values hscales).ok_eq _ hf, bind_ok_eq_error_iff, firstFault_singleton]
  · intro hnone output ho
    obtain ⟨harguments, hscale⟩ := List.forall_mem_append.mp hnone
    obtain ⟨t, ht, hresult⟩ := withArguments_eq hrows hcols hcodebook harguments
    rw [hresult, (Tensor.reads_values hscales).eq_ok (List.forall_mem_singleton.mp hscale),
      ok_bind, ho]
    refine ⟨_, rfl, Tensor.holdsCast_ofElements ht ?_⟩
    obtain ⟨-, -, rfl⟩ := dequantizeWithScales_eq_ok_iff.mp ho
    rw [Array.size_map, Array.size_range]
    exact size_words_of_not_refused hcols (forall_argumentChecks_iff.mp harguments).2.2.1

/-- The first check that fails decides the outcome of dequantizing contiguous tensors: the target
type, the rows, the columns, the codebook, the scales, and then the checks of dequantizing their
elements in row-major order. If none fails, the outcome holds the dequantized values, cast to the
target type, in the shape of the columns. Tensors with the same elements give the same, whatever
their index or value types and, but for the columns, their shapes. -/
theorem contiguous_tensors_decided_by_first_fault (a : Addressing)
    (rows cols codebook : Tensor) (target : ElementType) (hrows : rows.Contiguous)
    (hcols : cols.Contiguous) (hcodebook : codebook.Contiguous) :
    DecidedByFirstFault (a.dequantizeTensor rows cols codebook target).result
        (argumentChecks rows cols codebook target)
        (a.dequantize ⟨rows.words, cols.words⟩ codebook.singles).result target cols.shape ∧
    (∀ scales : Tensor, scales.Contiguous →
      DecidedByFirstFault (a.dequantizeTensorWithScales rows cols codebook scales target).result
        (argumentChecks rows cols codebook target ++ [scales.ValuesRefused .scales])
        (a.dequantizeWithScales ⟨rows.words, cols.words⟩ codebook.singles scales.singles).result
        target cols.shape) ∧
    ∀ rows' cols' codebook' : Tensor, rows.SameIntegers rows' → cols.SameIntegers cols' →
      cols.shape = cols'.shape → codebook.SameSingles codebook' →
      a.dequantizeTensor rows cols codebook target =
        a.dequantizeTensor rows' cols' codebook' target ∧
      ∀ scales scales' : Tensor, scales.Contiguous → scales.SameSingles scales' →
        a.dequantizeTensorWithScales rows cols codebook scales target =
          a.dequantizeTensorWithScales rows' cols' codebook' scales' target := by
  refine ⟨dequantizeTensor_decided a hrows hcols hcodebook, fun scales hscales ↦
    dequantizeTensorWithScales_decided a hrows hcols hcodebook hscales, ?_⟩
  intro rows' cols' codebook' hrows' hcols' hshape hcodebook'
  constructor
  · rw [dequantizeTensor, dequantizeTensor, hrows'.indices_eq hrows, hcols'.indices_eq hcols,
      hcodebook'.values_eq hcodebook, hshape]
  · intro scales scales' hscales hscales'
    rw [dequantizeTensorWithScales, dequantizeTensorWithScales, hrows'.indices_eq hrows,
      hcols'.indices_eq hcols, hcodebook'.values_eq hcodebook, hscales'.values_eq hscales, hshape]

/-- If the rows hold two negative integers, and neither the columns nor the codebook are of a type
that can be read, the first negative row is the fault. Columns of two rows give a half-precision
tensor of two rows, and so do signed columns and a bfloat16 codebook with the same elements. -/
theorem contiguous_tensors_decided_by_first_fault_two_calls :
    ((unbounded 2 2).dequantizeTensor (.ofElements (.i32 #[0, -3, -1]) [3, 1])
        (.ofElements (.f32 #[]) [0]) (.ofElements (.other .i64) [4]) .bf16).result =
      .error (.argument .rows (.negativeIndex (-3) 1)) ∧
    ∃ t : Tensor, t.shape = [2, 2] ∧ t.Contiguous ∧
      t.elements = .f16 #[.ofBits 0x7c00, .ofBits 0, .ofBits 0xc100, .ofBits 0xc100] ∧
      ((unbounded 2 2).dequantizeTensor (.ofElements (.u8 #[1, 0]) [1, 2])
        (.ofElements (.u32 #[1, 0, 1, 1]) [2, 2])
        (.ofElements (.f64 #[.ofBits 0x3ff0000000000000, .ofBits 0xc004000000000000, .ofBits 1,
          .ofBits 0x7ff0000000000000]) [4]) .f16).result = .ok t ∧
      ((unbounded 2 2).dequantizeTensor (.ofElements (.u8 #[1, 0]) [2])
        (.ofElements (.i32 #[1, 0, 1, 1]) [2, 2])
        (.ofElements (.bf16 #[.ofBits 0x3f80, .ofBits 0xc020, .ofBits 0, .ofBits 0x7f80]) [2, 2])
        .f16).result = .ok t := by
  constructor
  · have h := contiguous_tensors_decided_by_first_fault (unbounded 2 2)
      (.ofElements (.i32 #[0, -3, -1]) [3, 1]) (.ofElements (.f32 #[]) [0])
      (.ofElements (.other .i64) [4]) .bf16 (Tensor.contiguous_ofElements (Nat.le_refl _))
      (Tensor.contiguous_ofElements (Nat.le_refl _)) (Tensor.contiguous_ofElements ⟨rfl, rfl⟩)
    have hintegers : (Tensor.ofElements (.i32 #[0, -3, -1]) [3, 1]).integers = #[0, -3, -1] := by
      decide +kernel
    refine (h.1.refused _).mpr (.inr ⟨?_, .inl (.negative ⟨?_, by decide, ?_⟩)⟩)
    · rintro fault ⟨htype⟩
      cases htype
    · rw [hintegers]
      rfl
    · rw [hintegers]
      intro i hi x hx
      obtain rfl : i = 0 := by omega
      cases hx
      decide
  · have h := contiguous_tensors_decided_by_first_fault (unbounded 2 2)
      (.ofElements (.u8 #[1, 0]) [1, 2]) (.ofElements (.u32 #[1, 0, 1, 1]) [2, 2])
      (.ofElements (.f64 #[.ofBits 0x3ff0000000000000, .ofBits 0xc004000000000000, .ofBits 1,
        .ofBits 0x7ff0000000000000]) [4]) .f16 (Tensor.contiguous_ofElements (Nat.le_refl _))
      (Tensor.contiguous_ofElements (Nat.le_refl _)) (Tensor.contiguous_ofElements (Nat.le_refl _))
    have hrows : (Tensor.ofElements (.u8 #[1, 0]) [1, 2]).words = #[1, 0] := by decide +kernel
    have hcols : (Tensor.ofElements (.u32 #[1, 0, 1, 1]) [2, 2]).words = #[1, 0, 1, 1] := by
      decide +kernel
    have hcodebook : (Tensor.ofElements (.f64 #[.ofBits 0x3ff0000000000000,
        .ofBits 0xc004000000000000, .ofBits 1, .ofBits 0x7ff0000000000000]) [4]).singles =
          #[.ofBits 0x3f800000, .ofBits 0xc0200000, .ofBits 0, .ofBits 0x7f800000] := by
      decide +kernel
    obtain ⟨⟨-, hgiven⟩, -, hsame⟩ := h
    rw [hrows, hcols, hcodebook, forall_argumentChecks_iff] at hgiven
    have htarget : ∀ fault, ¬ Target.Refused .f16 fault := fun fault ⟨htype⟩ ↦ by cases htype
    obtain ⟨t, ht, hcast⟩ := hgiven
      ⟨htarget, Tensor.not_indicesRefused rfl (by decide +kernel),
        Tensor.not_indicesRefused rfl (by decide +kernel), Tensor.not_valuesRefused rfl⟩
      #[.ofBits 0x7f800000, .ofBits 0, .ofBits 0xc0200000, .ofBits 0xc0200000] rfl
    refine ⟨t, hcast.shape_eq, hcast.contiguous, ?_, ht, ?_⟩
    · obtain ⟨target, htarget, he⟩ := hcast.elements_eq
      cases htarget
      rw [he]
      decide +kernel
    · have hr : (Tensor.ofElements (.u8 #[1, 0]) [1, 2]).SameIntegers
          (.ofElements (.u8 #[1, 0]) [2]) :=
        ⟨Tensor.contiguous_ofElements (Nat.le_refl _), ⟨rfl, rfl⟩, by decide +kernel⟩
      have hc : (Tensor.ofElements (.u32 #[1, 0, 1, 1]) [2, 2]).SameIntegers
          (.ofElements (.i32 #[1, 0, 1, 1]) [2, 2]) :=
        ⟨Tensor.contiguous_ofElements (Nat.le_refl _), ⟨rfl, rfl⟩, by decide +kernel⟩
      have hv : (Tensor.ofElements (.f64 #[.ofBits 0x3ff0000000000000, .ofBits 0xc004000000000000,
          .ofBits 1, .ofBits 0x7ff0000000000000]) [4]).SameSingles
          (.ofElements (.bf16 #[.ofBits 0x3f80, .ofBits 0xc020, .ofBits 0, .ofBits 0x7f80])
            [2, 2]) :=
        ⟨Tensor.contiguous_ofElements (Nat.le_refl _), ⟨rfl, rfl⟩, by decide +kernel⟩
      rw [← ht, (hsame _ _ _ hr hc rfl hv).1]

end Addressing

end IndexedCodebook
