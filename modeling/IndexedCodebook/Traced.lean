import IndexedCodebook.Event

/-!
# Traced results

A `Traced` result is an outcome together with the events on the way to it. A fault ends a sequence
of operations but keeps the events that came before it.

Source: every function of `quant` that returns a result and logs on the way; `SPEC_FULL` §7 and §8.
-/

namespace IndexedCodebook

/-- An outcome and the events on the way to it. -/
structure Traced (α : Type) where
  result : Except Fault α
  events : List Event
  deriving Repr

namespace Traced

variable {α β : Type}

/-- An outcome without events. -/
def ofResult (r : Except Fault α) : Traced α := ⟨r, []⟩

/-- A refusal without events. -/
def fail (fault : Fault) : Traced α := ⟨.error fault, []⟩

/-- Note an event. -/
def emit (event : Event) : Traced Unit := ⟨.ok (), [event]⟩

/-- Note several events. -/
def emitAll (events : List Event) : Traced Unit := ⟨.ok (), events⟩

/-- Go on with the value of an outcome, unless it is a refusal. -/
def bind (t : Traced α) (next : α → Traced β) : Traced β :=
  match t.result with
  | .error fault => ⟨.error fault, t.events⟩
  | .ok a => ⟨(next a).result, t.events ++ (next a).events⟩

instance : Monad Traced where
  pure a := ⟨.ok a, []⟩
  bind := bind

/-- An outcome without events is that outcome. -/
@[simp] theorem result_ofResult (r : Except Fault α) : (ofResult r).result = r := rfl

/-- Noting an event succeeds. -/
@[simp] theorem result_emit (event : Event) : (emit event).result = .ok () := rfl

/-- Noting several events succeeds. -/
@[simp] theorem result_emitAll (events : List Event) : (emitAll events).result = .ok () := rfl

/-- A refusal without events is that refusal. -/
@[simp] theorem result_fail (fault : Fault) : (fail fault : Traced α).result = .error fault := rfl

/-- A value without events is that value. -/
@[simp] theorem result_pure (x : α) : (pure x : Traced α).result = .ok x := rfl

/-- The outcome of two steps depends on their outcomes alone. -/
@[simp] theorem result_bind (t : Traced α) (next : α → Traced β) :
    (t >>= next).result = t.result >>= fun x ↦ (next x).result := by
  cases t with
  | mk r events => cases r <;> rfl

/-- Mapping the value of a success keeps refusals. -/
@[simp] theorem result_map (f : α → β) (t : Traced α) :
    (f <$> t).result = t.result >>= fun x ↦ .ok (f x) :=
  result_bind t (pure ∘ f)

/-- Only the value of a success matters to what follows it. -/
theorem bind_congr {t : Traced α} {f g : α → Traced β} (h : ∀ x, t.result = .ok x → f x = g x) :
    (t >>= f) = (t >>= g) := by
  cases hr : t.result with
  | error fault => simp [Bind.bind, bind, hr]
  | ok x => simp [Bind.bind, bind, hr, h x hr]

/-- Go on after a success. -/
theorem bind_of_ok {t : Traced α} {a : α} (next : α → Traced β) (h : t.result = .ok a) :
    (t >>= next) = ⟨(next a).result, t.events ++ (next a).events⟩ := by
  simp [Bind.bind, bind, h]

/-- Stop after a refusal. -/
theorem bind_of_error {t : Traced α} {fault : Fault} (next : α → Traced β)
    (h : t.result = .error fault) : (t >>= next) = ⟨.error fault, t.events⟩ := by
  simp [Bind.bind, bind, h]

end Traced

end IndexedCodebook
