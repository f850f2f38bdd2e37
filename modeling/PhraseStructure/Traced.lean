/-!
# Computations that report events

A traced computation writes a list of events and then either returns a value
or fails. What was written before a failure stays written. The outcome of a
composite computation depends on the outcomes of its parts alone, so a
statement about results can forget the events.
-/

namespace PhraseStructure

structure Traced (ω ε α : Type) where
  events : List ω
  outcome : Except ε α

namespace Traced

variable {ω ε α β γ : Type}

def emit (event : ω) : Traced ω ε Unit := ⟨[event], .ok ()⟩

def fail (error : ε) : Traced ω ε α := ⟨[], .error error⟩

/-- The same computation with its events and its error put in other words. -/
def reword {ω' ε' : Type} (event : ω → ω') (error : ε → ε') (x : Traced ω ε α) :
    Traced ω' ε' α :=
  ⟨x.events.map event, x.outcome.mapError error⟩

protected def bind (x : Traced ω ε α) (next : α → Traced ω ε β) : Traced ω ε β :=
  match x.outcome with
  | .ok a => ⟨x.events ++ (next a).events, (next a).outcome⟩
  | .error e => ⟨x.events, .error e⟩

instance : Monad (Traced ω ε) where
  pure a := ⟨[], .ok a⟩
  bind := Traced.bind

@[simp] theorem events_pure (a : α) : (pure a : Traced ω ε α).events = [] := rfl

@[simp] theorem outcome_pure (a : α) : (pure a : Traced ω ε α).outcome = .ok a := rfl

@[simp] theorem events_emit (event : ω) : (emit event : Traced ω ε Unit).events = [event] := rfl

@[simp] theorem outcome_emit (event : ω) : (emit event : Traced ω ε Unit).outcome = .ok () := rfl

@[simp] theorem events_fail (error : ε) : (fail error : Traced ω ε α).events = [] := rfl

@[simp] theorem outcome_fail (error : ε) : (fail error : Traced ω ε α).outcome = .error error := rfl

theorem outcome_bind (x : Traced ω ε α) (next : α → Traced ω ε β) :
    (x >>= next).outcome = x.outcome >>= fun a ↦ (next a).outcome := by
  obtain ⟨events, outcome⟩ := x
  cases outcome <;> rfl

theorem outcome_bind_eq_ok_iff {x : Traced ω ε α} {next : α → Traced ω ε β} {b : β} :
    (x >>= next).outcome = .ok b ↔ ∃ a, x.outcome = .ok a ∧ (next a).outcome = .ok b := by
  rw [outcome_bind]
  cases x.outcome with
  | ok a => simp [bind, Except.bind]
  | error e => simp [bind, Except.bind]

theorem outcome_bind_eq_error_iff {x : Traced ω ε α} {next : α → Traced ω ε β} {e : ε} :
    (x >>= next).outcome = .error e ↔
      x.outcome = .error e ∨ ∃ a, x.outcome = .ok a ∧ (next a).outcome = .error e := by
  rw [outcome_bind]
  cases x.outcome with
  | ok a => simp [bind, Except.bind]
  | error e => simp [bind, Except.bind]

theorem outcome_bind_of_ok {x : Traced ω ε α} {a : α} (h : x.outcome = .ok a)
    (next : α → Traced ω ε β) : (x >>= next).outcome = (next a).outcome := by
  rw [outcome_bind, h]
  rfl

/-- What follows a computation is looked at only for the value that comes out. -/
theorem bind_congr_of_outcome {x : Traced ω ε α} {f g : α → Traced ω ε β}
    (h : ∀ a, x.outcome = .ok a → f a = g a) : x >>= f = x >>= g := by
  obtain ⟨events, outcome⟩ := x
  cases outcome with
  | ok a =>
      change Traced.bind _ f = Traced.bind _ g
      simp only [Traced.bind, h a rfl]
  | error e => rfl

theorem bind_congr_of_ok {x : Traced ω ε α} {a : α} (h : x.outcome = .ok a)
    {f g : α → Traced ω ε β} (hfg : f a = g a) : x >>= f = x >>= g := by
  apply bind_congr_of_outcome
  intro b hb
  cases h.symm.trans hb
  exact hfg

theorem events_bind (x : Traced ω ε α) (next : α → Traced ω ε β) :
    (x >>= next).events =
      x.events ++ match x.outcome with
        | .ok a => (next a).events
        | .error _ => [] := by
  obtain ⟨events, outcome⟩ := x
  cases outcome with
  | ok a => rfl
  | error e => exact (List.append_nil events).symm

theorem events_bind_of_ok {x : Traced ω ε α} {a : α} (h : x.outcome = .ok a)
    (next : α → Traced ω ε β) : (x >>= next).events = x.events ++ (next a).events := by
  rw [events_bind, h]

@[ext] theorem ext {x y : Traced ω ε α} (events : x.events = y.events)
    (outcome : x.outcome = y.outcome) : x = y := by
  cases x; cases y; cases events; cases outcome; rfl

protected theorem bind_assoc (x : Traced ω ε α) (f : α → Traced ω ε β) (g : β → Traced ω ε γ) :
    x >>= f >>= g = x >>= fun a ↦ f a >>= g := by
  obtain ⟨events, outcome⟩ := x
  cases outcome with
  | error e => rfl
  | ok a =>
      change Traced.bind (Traced.bind _ f) g = Traced.bind _ fun a ↦ Traced.bind (f a) g
      cases h : (f a).outcome <;> simp [Traced.bind, h]

instance : LawfulMonad (Traced ω ε) :=
  LawfulMonad.mk' _
    (fun x ↦ by
      obtain ⟨events, outcome⟩ := x
      cases outcome <;> simp [Functor.map, Traced.bind])
    (fun _ _ ↦ rfl)
    Traced.bind_assoc

end Traced

end PhraseStructure
