/-!
# Sequences of fallible steps

A sequence of steps succeeds exactly if every step does, and its first failure is its failure. A
fold whose step succeeds at every element is the fold of the values, and one whose step fails at
some element, and only in one way, fails in that way. A search finds the lowest hit.

Where the checks of an operation are described one by one, `FirstFault` says which of them decides
its failure; `bind_eq_error_iff_firstFault` puts one check in front of the others.
-/

namespace IndexedCodebook.Outcome

variable {ε α β : Type}

/-- Whether a step succeeds with a given result is decided by running it. -/
instance decidableEqOk [DecidableEq α] (b : α) : (x : Except ε α) → Decidable (x = .ok b)
  | .ok a => decidable_of_iff (a = b) (by rw [Except.ok.injEq])
  | .error _ => isFalse nofun

/-- Two steps succeed exactly if both do. -/
theorem bind_eq_ok_iff {x : Except ε α} {f : α → Except ε β} {b : β} :
    x >>= f = .ok b ↔ ∃ a, x = .ok a ∧ f a = .ok b := by
  cases x with
  | error e => simp [Bind.bind, Except.bind]
  | ok a => simp [Bind.bind, Except.bind]

/-- Two steps fail as the first does, or as the second does after the first succeeds. -/
theorem bind_eq_error_iff {x : Except ε α} {f : α → Except ε β} {e : ε} :
    x >>= f = .error e ↔ x = .error e ∨ ∃ a, x = .ok a ∧ f a = .error e := by
  cases x with
  | error e => simp [Bind.bind, Except.bind]
  | ok a => simp [Bind.bind, Except.bind]

/-- A step that is followed by one that succeeds fails as it does. -/
theorem bind_ok_eq_error_iff {x : Except ε α} {f : α → β} {e : ε} :
    (x >>= fun a ↦ .ok (f a)) = .error e ↔ x = .error e := by
  cases x with
  | error e' => simp [Bind.bind, Except.bind]
  | ok a => simp [Bind.bind, Except.bind]

/-- Going on after a success. -/
@[simp] theorem ok_bind (a : α) (f : α → Except ε β) : (Except.ok a >>= f) = f a := rfl

/-- Stopping after a failure. -/
@[simp] theorem error_bind (e : ε) (f : α → Except ε β) :
    (Except.error e >>= f) = .error e := rfl

/-- A step that gives back its value succeeds with it. -/
@[simp] theorem pure_eq_ok (a : α) : (pure a : Except ε α) = .ok a := rfl

/-- A function applied to the value of a success. -/
@[simp] theorem map_ok (f : α → β) (a : α) : f <$> (.ok a : Except ε α) = .ok (f a) := rfl

/-- A fold succeeds with the fold of the values if its step succeeds at every element. -/
theorem foldlM_eq_ok {step : β → α → Except ε β} (next : β → α → β) {xs : List α}
    (h : ∀ b, ∀ x ∈ xs, step b x = .ok (next b x)) (init : β) :
    xs.foldlM step init = .ok (xs.foldl next init) := by
  induction xs generalizing init with
  | nil => rfl
  | cons x xs ih =>
    rw [List.foldlM_cons, h init x (by simp), ok_bind, List.foldl_cons]
    exact ih (fun b y hy ↦ h b y (List.mem_cons_of_mem x hy)) (next init x)

/-- A fold fails with a fault if its step has no other fault and always has it at some element. -/
theorem foldlM_eq_error {step : β → α → Except ε β} {xs : List α} {e : ε}
    (honly : ∀ b, ∀ x ∈ xs, ∀ e', step b x = .error e' → e' = e) {x : α} (hx : x ∈ xs)
    (hfail : ∀ b, step b x = .error e) (init : β) : xs.foldlM step init = .error e := by
  induction xs generalizing init with
  | nil => cases hx
  | cons y xs ih =>
    rw [List.foldlM_cons]
    cases hy : step init y with
    | error e' =>
      rw [honly init y (by simp) e' hy]
      rfl
    | ok b =>
      have hrest : x ∈ xs := by
        rcases List.mem_cons.mp hx with rfl | hrest
        · rw [hfail init] at hy
          cases hy
        · exact hrest
      rw [ok_bind]
      exact ih (fun b z hz ↦ honly b z (List.mem_cons_of_mem y hz)) hrest b

/-- Folds whose steps agree on the elements agree. -/
theorem foldlM_congr {f g : β → α → Except ε β} {xs : List α}
    (h : ∀ b, ∀ x ∈ xs, f b x = g b x) (init : β) : xs.foldlM f init = xs.foldlM g init := by
  induction xs generalizing init with
  | nil => rfl
  | cons x xs ih =>
    have ht : ∀ b, ∀ y ∈ xs, f b y = g b y := fun b y hy ↦ h b y (List.mem_cons_of_mem x hy)
    rw [List.foldlM_cons, List.foldlM_cons, h init x (by simp)]
    simp only [ih ht]

/-- Folding the lists of the elements one after the other is folding their concatenation. -/
theorem foldlM_flatMap {γ : Type} {step : β → γ → Except ε β} {lists : α → List γ} {xs : List α}
    (init : β) :
    xs.foldlM (fun b x ↦ (lists x).foldlM step b) init = (xs.flatMap lists).foldlM step init := by
  induction xs generalizing init with
  | nil => rfl
  | cons x xs ih =>
    rw [List.foldlM_cons, List.flatMap_cons, List.foldlM_append]
    simp only [ih]

/-- Traversals whose steps agree on the elements agree. -/
theorem mapM_congr {f g : α → Except ε β} {xs : List α} (h : ∀ x ∈ xs, f x = g x) :
    xs.mapM f = xs.mapM g := by
  induction xs with
  | nil => rfl
  | cons x xs ih =>
    rw [List.mapM_cons, List.mapM_cons, h x (by simp),
      ih fun y hy ↦ h y (List.mem_cons_of_mem x hy)]

/-- A traversal succeeds with some values if its step succeeds with each at its place. -/
theorem mapM_eq_ok {step : α → Except ε β} {xs : List α} {ys : List β}
    (hlength : xs.length = ys.length)
    (h : ∀ i (hx : i < xs.length) (hy : i < ys.length), step xs[i] = .ok ys[i]) :
    xs.mapM step = .ok ys := by
  induction xs generalizing ys with
  | nil =>
    cases ys with
    | nil => rfl
    | cons y ys => cases hlength
  | cons x xs ih =>
    cases ys with
    | nil => cases hlength
    | cons y ys =>
      have hhead : step x = .ok y := h 0 (Nat.succ_pos _) (Nat.succ_pos _)
      have htail : xs.mapM step = .ok ys := ih (Nat.succ.inj hlength) fun i hx hy ↦
        h (i + 1) (Nat.succ_lt_succ hx) (Nat.succ_lt_succ hy)
      rw [List.mapM_cons, hhead, htail, ok_bind, ok_bind, pure_eq_ok]

/-- What a search finds depends on its hits alone. -/
theorem findSome?_congr {f g : α → Option β} {xs : List α} (h : ∀ x ∈ xs, f x = g x) :
    xs.findSome? f = xs.findSome? g := by
  induction xs with
  | nil => rfl
  | cons x xs ih =>
    rw [List.findSome?_cons, List.findSome?_cons, h x (by simp),
      ih fun y hy ↦ h y (List.mem_cons_of_mem x hy)]

/-- A search below a bound finds what the lowest hit gives. -/
theorem findSome?_range_eq_some_iff {f : Nat → Option α} {n : Nat} {x : α} :
    (List.range n).findSome? f = some x ↔ ∃ p < n, f p = some x ∧ ∀ i < p, f i = none := by
  induction n with
  | zero => simp
  | succ n ih =>
    rw [List.range_succ, List.findSome?_append, Option.or_eq_some_iff, ih,
      List.findSome?_eq_none_iff]
    constructor
    · rintro (⟨p, hp, hx, hlow⟩ | ⟨hnone, hlast⟩)
      · exact ⟨p, Nat.lt_succ_of_lt hp, hx, hlow⟩
      · exact ⟨n, Nat.lt_succ_self n, by simpa using hlast, fun i hi ↦
          hnone i (List.mem_range.mpr hi)⟩
    · rintro ⟨p, hp, hx, hlow⟩
      rcases Nat.lt_succ_iff_lt_or_eq.mp hp with hlt | rfl
      · exact .inl ⟨p, hlt, hx, hlow⟩
      · exact .inr ⟨fun i hi ↦ hlow i (List.mem_range.mp hi), by simpa using hx⟩

/-- The failure of the first check that fails. A check is given by its failures. -/
def FirstFault : List (ε → Prop) → ε → Prop
  | [], _ => False
  | check :: later, e => check e ∨ (∀ e', ¬ check e') ∧ FirstFault later e

/-- If there is no first failure, no check fails. -/
theorem forall_not_of_not_firstFault {checks : List (ε → Prop)} (h : ∀ e, ¬ FirstFault checks e) :
    ∀ check ∈ checks, ∀ e, ¬ check e := by
  induction checks with
  | nil => simp
  | cons check later ih =>
    have hcheck : ∀ e, ¬ check e := fun e hc ↦ h e (.inl hc)
    have hlater : ∀ e, ¬ FirstFault later e := fun e hl ↦ h e (.inr ⟨hcheck, hl⟩)
    exact List.forall_mem_cons.mpr ⟨hcheck, ih hlater⟩

/-- The only check that is left decides. -/
theorem firstFault_singleton {check : ε → Prop} {e : ε} : FirstFault [check] e ↔ check e := by
  simp [FirstFault]

/-- A step in front of others puts its check in front of theirs. -/
theorem bind_eq_error_iff_firstFault {x : Except ε α} {f : α → Except ε β} {check : ε → Prop}
    {later : List (ε → Prop)} (hx : ∀ e, x = .error e ↔ check e)
    (hf : ∀ a, x = .ok a → ∀ e, f a = .error e ↔ FirstFault later e) (e : ε) :
    x >>= f = .error e ↔ FirstFault (check :: later) e := by
  cases x with
  | error e' =>
    have hcheck : check e' := (hx e').mp rfl
    have hsame : (.error e' : Except ε β) = .error e ↔ check e := by
      rw [← hx e, Except.error.injEq, Except.error.injEq]
    rw [error_bind, hsame]
    exact ⟨.inl, fun h ↦ h.elim id fun hlater ↦ absurd hcheck (hlater.1 e')⟩
  | ok a =>
    have hnone : ∀ e', ¬ check e' := by
      intro e' hcheck
      cases (hx e').mpr hcheck
    rw [ok_bind, hf a rfl e]
    exact ⟨fun h ↦ .inr ⟨hnone, h⟩, fun h ↦ h.elim (fun hc ↦ absurd hc (hnone e)) And.right⟩

/-- A reading fails as `refused` says and otherwise gives `value`. -/
structure Reads (x : Except ε α) (refused : ε → Prop) (value : α) : Prop where
  error_iff : ∀ e, x = .error e ↔ refused e
  ok_eq : ∀ a, x = .ok a → a = value

/-- A reading that succeeds is not refused. -/
theorem reads_ok {refused : ε → Prop} {value : α} (h : ∀ e, ¬ refused e) :
    Reads (.ok value) refused value := by
  refine ⟨fun e ↦ ⟨fun hc ↦ ?_, fun hr ↦ absurd hr (h e)⟩, fun a ha ↦ ?_⟩
  · cases hc
  · cases ha
    rfl

/-- A reading that fails is refused in its way only. -/
theorem reads_error {refused : ε → Prop} {value : α} {e : ε} (h : ∀ e', refused e' ↔ e' = e) :
    Reads (.error e) refused value := by
  refine ⟨fun e' ↦ ?_, fun a ha ↦ ?_⟩
  · rw [h e', Except.error.injEq, eq_comm]
  · cases ha

/-- A reading that is not refused gives its value. -/
theorem Reads.eq_ok {x : Except ε α} {refused : ε → Prop} {value : α} (h : Reads x refused value)
    (hnone : ∀ e, ¬ refused e) : x = .ok value := by
  cases x with
  | error e => exact absurd ((h.error_iff e).mp rfl) (hnone e)
  | ok a => rw [h.ok_eq a rfl]

/-- Readings that are refused alike and give the same value are the same. -/
theorem Reads.eq {x y : Except ε α} {refused refused' : ε → Prop} {value : α}
    (hx : Reads x refused value) (hy : Reads y refused' value)
    (h : ∀ e, refused e ↔ refused' e) : x = y := by
  cases y with
  | error e => exact (hx.error_iff e).mpr ((h e).mpr ((hy.error_iff e).mp rfl))
  | ok b =>
    cases x with
    | error e => exact ((hy.error_iff e).mpr ((h e).mp ((hx.error_iff e).mp rfl))).symm
    | ok a => rw [hx.ok_eq a rfl, hy.ok_eq b rfl]

end IndexedCodebook.Outcome
