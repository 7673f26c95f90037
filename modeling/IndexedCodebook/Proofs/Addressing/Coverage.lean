import IndexedCodebook.Proofs.Addressing.Bijection

/-!
# What the notes on the size of a codebook mean

A codebook is noted as too small exactly if some pair of indices below their cardinalities reaches
no entry of it, and as too large exactly if no such pair reaches some entry of it. The notes compare
one product with the length of the codebook (`sizeEvents_of_rows`); that this is what they mean
follows from where the pairs of an addressing lead (`exists_not_resolved_iff` and
`exists_not_reached_iff`). The main result is `size_notes_truthful`.
-/

namespace IndexedCodebook

namespace Event

/-- Some events warn that a codebook is too small for its addressing. -/
def WarnOfSmallCodebook (events : List Event) : Prop :=
  ∃ event ∈ events, event.level = .warn ∧
    event.message = "codebook is smaller than the configured address space"

/-- Some events note that a codebook is too large for its addressing. -/
def NoteUnreachableEntries (events : List Event) : Prop :=
  ∃ event ∈ events, event.level = .debug ∧
    event.message = "codebook entries beyond the address space are unreachable"

private theorem smallCodebook_tells (entries space : Nat) :
    WarnOfSmallCodebook [smallCodebook entries space] ∧
      ¬ NoteUnreachableEntries [smallCodebook entries space] := by
  simp [WarnOfSmallCodebook, NoteUnreachableEntries, level, message]

private theorem unreachableEntries_tells (entries space : Nat) :
    ¬ WarnOfSmallCodebook [unreachableEntries entries space] ∧
      NoteUnreachableEntries [unreachableEntries entries space] := by
  simp [WarnOfSmallCodebook, NoteUnreachableEntries, level, message]

private theorem nil_tells : ¬ WarnOfSmallCodebook [] ∧ ¬ NoteUnreachableEntries [] := by
  simp [WarnOfSmallCodebook, NoteUnreachableEntries]

end Event

namespace Addressing

open Outcome

variable {a : Addressing} {entries : Nat} {rows : UInt64}

/-- Index pairs below both cardinalities. -/
def WithinCardinalities (a : Addressing) (rows : UInt64) (pair : UInt64 × UInt64) : Prop :=
  pair.1.toNat < rows.toNat ∧ pair.2.toNat < a.colCardinality.toNat

private theorem space?_of_usable (h : a.Usable) (hrows : rows ∈ a.rowCardinality) :
    ∃ space, a.space? = some space ∧ space.toNat = rows.toNat * a.colCardinality.toNat := by
  have hle := h.space_le rows hrows
  have hproduct : checkedMul rows a.colCardinality = some (rows * a.colCardinality) :=
    if_pos (by omega)
  refine ⟨rows * a.colCardinality, ?_, toNat_of_checkedMul hproduct⟩
  rw [space?, hrows, Option.bind_some, hproduct]

private theorem sizeEvents_of_rows (h : a.Usable) (hrows : rows ∈ a.rowCardinality)
    (entries : Nat) :
    a.sizeEvents entries =
      if entries < rows.toNat * a.colCardinality.toNat then
        [.smallCodebook entries (rows.toNat * a.colCardinality.toNat)]
      else if rows.toNat * a.colCardinality.toNat < entries then
        [.unreachableEntries entries (rows.toNat * a.colCardinality.toNat)]
      else [] := by
  obtain ⟨space, hspace, hproduct⟩ := space?_of_usable h hrows
  rw [sizeEvents, hspace, ← hproduct]

private theorem sizeEvents_of_none (h : a.rowCardinality = none) (entries : Nat) :
    a.sizeEvents entries = [] := by
  rw [sizeEvents, space?, h, Option.bind_none]

private theorem exists_resolveNat?_eq (h : a.Usable) (hsize : entries < 2 ^ 64) {n : Nat}
    (hn : n < a.reachable entries) : ∃ pair, a.resolveNat? entries pair = some n := by
  obtain ⟨pair, -, hpair⟩ := resolveNat?_surjOn h hsize ⟨n, hn, rfl⟩
  exact ⟨pair, hpair⟩

private theorem withinCardinalities_of_resolveNat? (hrows : rows ∈ a.rowCardinality) {n : Nat}
    {pair : UInt64 × UInt64} (h : a.resolveNat? entries pair = some n) :
    a.WithinCardinalities rows pair := by
  obtain ⟨address, haddress, -⟩ := resolveNat?_eq_some_iff.mp h
  have hreaches := (resolve?_eq_some_iff.mp haddress).1
  exact ⟨hreaches.row_lt rows hrows, hreaches.col_lt⟩

private theorem exists_not_resolved_iff (h : a.Usable) (hrows : rows ∈ a.rowCardinality)
    (hsize : entries < 2 ^ 64) :
    (∃ pair, a.WithinCardinalities rows pair ∧ a.resolve? entries pair.1 pair.2 = none) ↔
      entries < rows.toNat * a.colCardinality.toNat := by
  constructor
  · rintro ⟨⟨row, col⟩, ⟨hrow, hcol⟩, hnone⟩
    by_contra hle
    have hspace := (mul_add_lt_mul_iff hcol).mpr hrow
    refine (resolve?_eq_none_iff hsize).mp hnone ⟨hcol, fun rows' hrows' ↦ ?_, by omega⟩
    rw [Option.mem_unique hrows' hrows]
    exact hrow
  · intro hlt
    -- the pair of the first address that lies behind the codebook
    have hpos := h.colCardinality_pos
    have hword : (UInt64.ofNat entries).toNat = entries := by
      rw [UInt64.toNat_ofNat', Nat.mod_eq_of_lt hsize]
    refine ⟨(.ofNat entries / a.colCardinality, .ofNat entries % a.colCardinality), ⟨?_, ?_⟩, ?_⟩
    · rw [UInt64.toNat_div, hword, Nat.div_lt_iff_lt_mul hpos]
      exact hlt
    · rw [UInt64.toNat_mod]
      exact Nat.mod_lt _ hpos
    · rw [resolve?_eq_none_iff hsize]
      intro hreaches
      have haddress := hreaches.address_lt
      rw [UInt64.toNat_div, UInt64.toNat_mod, hword, Nat.div_add_mod'] at haddress
      omega

private theorem exists_not_reached_iff (h : a.Usable) (hrows : rows ∈ a.rowCardinality)
    (hsize : entries < 2 ^ 64) :
    (∃ n < entries, ∀ pair, a.WithinCardinalities rows pair →
      a.resolveNat? entries pair ≠ some n) ↔ rows.toNat * a.colCardinality.toNat < entries := by
  constructor
  · rintro ⟨n, hn, hnone⟩
    by_contra hle
    have hreachable : n < a.reachable entries := by
      rw [lt_reachable_iff]
      refine ⟨hn, fun rows' hrows' ↦ ?_⟩
      rw [Option.mem_unique hrows' hrows]
      omega
    obtain ⟨pair, hpair⟩ := exists_resolveNat?_eq h hsize hreachable
    exact hnone pair (withinCardinalities_of_resolveNat? hrows hpair) hpair
  · intro hlt
    -- the first entry behind the address space
    refine ⟨rows.toNat * a.colCardinality.toNat, hlt, fun pair _ hpair ↦ ?_⟩
    obtain ⟨m, hm, heq⟩ :=
      a.resolveNat?_mapsTo entries (Option.isSome_iff_exists.mpr ⟨_, hpair⟩)
    rw [hpair, Option.some.injEq] at heq
    have hspace := (lt_reachable_iff.mp hm).2 rows hrows
    omega

/-- What the notes on the size of a codebook tell about an addressing. -/
structure TruthfulNotes (a : Addressing) (entries : Nat) (events : List Event) : Prop where
  /-- The warning means that some pair within the cardinalities reaches no entry. -/
  warn_iff : ∀ rows ∈ a.rowCardinality,
    Event.WarnOfSmallCodebook events ↔
      ∃ pair, a.WithinCardinalities rows pair ∧ a.resolve? entries pair.1 pair.2 = none
  /-- The note means that no pair within the cardinalities reaches some entry. -/
  note_iff : ∀ rows ∈ a.rowCardinality,
    Event.NoteUnreachableEntries events ↔
      ∃ n < entries, ∀ pair, a.WithinCardinalities rows pair →
        a.resolveNat? entries pair ≠ some n
  /-- There is one of them at most, and nothing else. -/
  length_le : events.length ≤ 1
  not_both : ¬ (Event.WarnOfSmallCodebook events ∧ Event.NoteUnreachableEntries events)
  fields_eq : ∀ rows ∈ a.rowCardinality, ∀ event ∈ events, event.fields =
    [("codebook_len", .integer entries),
      ("address_space", .integer (rows.toNat * a.colCardinality.toNat))]
  /-- Without a note pairs and entries match. -/
  of_nil : ∀ rows ∈ a.rowCardinality, events = [] →
    (∀ pair, a.WithinCardinalities rows pair → (a.resolve? entries pair.1 pair.2).isSome) ∧
      ∀ n < entries, ∃ pair, a.WithinCardinalities rows pair ∧
        a.resolveNat? entries pair = some n
  /-- Without a row cardinality there is no note, and every entry is reached. -/
  of_none : a.rowCardinality = none →
    events = [] ∧ ∀ n < entries, ∃ pair, a.resolveNat? entries pair = some n

/-- With a row cardinality, the two notes compare the codebook with the address space. -/
theorem tells_sizeEvents (h : a.Usable) (hrows : rows ∈ a.rowCardinality) (entries : Nat) :
    (Event.WarnOfSmallCodebook (a.sizeEvents entries) ↔
        entries < rows.toNat * a.colCardinality.toNat) ∧
      (Event.NoteUnreachableEntries (a.sizeEvents entries) ↔
        rows.toNat * a.colCardinality.toNat < entries) := by
  rw [sizeEvents_of_rows h hrows]
  split
  · next hlt =>
    obtain ⟨hwarn, hnote⟩ :=
      Event.smallCodebook_tells entries (rows.toNat * a.colCardinality.toNat)
    exact ⟨iff_of_true hwarn hlt, iff_of_false hnote (by omega)⟩
  · next hge =>
    split
    · next hgt =>
      obtain ⟨hwarn, hnote⟩ :=
        Event.unreachableEntries_tells entries (rows.toNat * a.colCardinality.toNat)
      exact ⟨iff_of_false hwarn hge, iff_of_true hnote hgt⟩
    · next hle =>
      exact ⟨iff_of_false Event.nil_tells.1 hge, iff_of_false Event.nil_tells.2 hle⟩

/-- The notes on the size of a codebook are truthful. -/
theorem truthfulNotes_sizeEvents (h : a.Usable) (hsize : entries < 2 ^ 64) :
    a.TruthfulNotes entries (a.sizeEvents entries) where
  warn_iff := by
    intro rows hrows
    rw [(tells_sizeEvents h hrows entries).1, exists_not_resolved_iff h hrows hsize]
  note_iff := by
    intro rows hrows
    rw [(tells_sizeEvents h hrows entries).2, exists_not_reached_iff h hrows hsize]
  length_le := by
    unfold sizeEvents
    split
    · exact Nat.zero_le 1
    · split_ifs <;> simp
  not_both := by
    cases hcardinality : a.rowCardinality with
    | none =>
      rw [sizeEvents_of_none hcardinality]
      exact fun hboth ↦ Event.nil_tells.1 hboth.1
    | some rows =>
      obtain ⟨hwarn, hnote⟩ := tells_sizeEvents h hcardinality entries
      rw [hwarn, hnote]
      omega
  fields_eq := by
    intro rows hrows event hevent
    rw [sizeEvents_of_rows h hrows] at hevent
    split at hevent
    · rw [List.mem_singleton.mp hevent, Event.fields]
    · split at hevent
      · rw [List.mem_singleton.mp hevent, Event.fields]
      · cases hevent
  of_nil := by
    intro rows hrows hnil
    obtain ⟨hwarn, hnote⟩ := tells_sizeEvents h hrows entries
    rw [hnil, ← exists_not_resolved_iff h hrows hsize] at hwarn
    rw [hnil, ← exists_not_reached_iff h hrows hsize] at hnote
    constructor
    · intro pair hpair
      by_contra hnone
      exact Event.nil_tells.1 (hwarn.mpr ⟨pair, hpair, Option.not_isSome_iff_eq_none.mp hnone⟩)
    · intro n hn
      by_contra hunreached
      refine Event.nil_tells.2 (hnote.mpr ⟨n, hn, fun pair hpair heq ↦ ?_⟩)
      exact hunreached ⟨pair, hpair, heq⟩
  of_none := by
    intro hnone
    refine ⟨sizeEvents_of_none hnone entries, fun n hn ↦ exists_resolveNat?_eq h hsize ?_⟩
    rw [lt_reachable_iff, hnone]
    exact ⟨hn, by simp⟩

/-- The notes on the size of a codebook are truthful wherever the lengths fit, and no size is noted
where they do not. -/
theorem size_notes_truthful (a : Addressing) (rows columns entries : Nat)
    (hsize : entries < 2 ^ 64) :
    (∀ shape, (a.shapeOf rows columns entries).result = .ok shape →
      a.TruthfulNotes entries (a.shapeOf rows columns entries).events) ∧
    ∀ fault, (a.shapeOf rows columns entries).result = .error fault →
      (a.shapeOf rows columns entries).events = [] := by
  constructor
  · intro shape hshape
    have hfits := fits_of_shapeOf_eq_ok hshape
    rw [shapeOf_eq hfits]
    exact truthfulNotes_sizeEvents hfits.usable hsize
  · intro fault hfault
    rw [result_shapeOf] at hfault
    rw [shapeOf, Traced.bind_of_error _ hfault]
    rfl

/-- For two rows of three entries, five entries are too few for some pair and seven are more than
the pairs reach. Two rows for one group are refused without a note. -/
theorem size_notes_truthful_five_and_seven :
    (∃ pair, (⟨4, 3, some 2⟩ : Addressing).WithinCardinalities 2 pair ∧
      (⟨4, 3, some 2⟩ : Addressing).resolve? 5 pair.1 pair.2 = none) ∧
    (∃ n < 7, ∀ pair, (⟨4, 3, some 2⟩ : Addressing).WithinCardinalities 2 pair →
      (⟨4, 3, some 2⟩ : Addressing).resolveNat? 7 pair ≠ some n) ∧
    ((⟨4, 3, some 2⟩ : Addressing).shapeOf 2 4 5).events = [] := by
  obtain ⟨hfive, -⟩ := size_notes_truthful ⟨4, 3, some 2⟩ 1 4 5 (by decide)
  obtain ⟨hseven, -⟩ := size_notes_truthful ⟨4, 3, some 2⟩ 1 4 7 (by decide)
  obtain ⟨-, hrefused⟩ := size_notes_truthful ⟨4, 3, some 2⟩ 2 4 5 (by decide)
  refine ⟨?_, ?_, hrefused _ rfl⟩
  · exact ((hfive _ rfl).warn_iff 2 rfl).mp ⟨.smallCodebook 5 6, .head _, rfl, rfl⟩
  · exact ((hseven _ rfl).note_iff 2 rfl).mp ⟨.unreachableEntries 7 6, .head _, rfl, rfl⟩

end Addressing

end IndexedCodebook
