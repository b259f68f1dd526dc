import StyleTree.Event
import StyleTree.Fault

/-!
# Actions

An action works on a state, may fail, and reports events.  Two decisions shape it.

* A failure does not undo anything.  The state and the events of a failed action are those at the
  moment of failure, which is what lets one speak about the tree that a failed edit leaves behind.
* Events are only ever added.  An action is a function of the state alone, so no action can react to
  what has been reported, and two runs that differ only in what they report end in the same state.
-/

namespace StyleTree

/-- How an action ended: its result, the state it left, and what it reported, the first event
first. -/
structure Outcome (σ α : Type) where
  result : Except Fault α
  state : σ
  events : List Event

/-- A computation on a state that may fail and reports events. -/
def Action (σ α : Type) : Type :=
  σ → Outcome σ α

namespace Action

variable {σ τ α β : Type}

/-- The outcome of an action from a state. -/
def run (x : Action σ α) (s : σ) : Outcome σ α := x s

/-- A result, and nothing else. -/
protected def pure (a : α) : Action σ α := fun s => ⟨.ok a, s, []⟩

/-- One action after another, unless the first one fails. -/
protected def bind (x : Action σ α) (f : α → Action σ β) : Action σ β := fun s =>
  match x s with
  | ⟨.ok a, s', events⟩ =>
    let o := f a s'
    ⟨o.result, o.state, events ++ o.events⟩
  | ⟨.error e, s', events⟩ => ⟨.error e, s', events⟩

instance : Monad (Action σ) where
  pure := Action.pure
  bind := Action.bind

/-- Failure. -/
def fail (e : Fault) : Action σ α := fun s => ⟨.error e, s, []⟩

instance : Inhabited (Action σ α) := ⟨fail .unfinished⟩

/-- The state. -/
def get : Action σ σ := fun s => ⟨.ok s, s, []⟩

/-- A change of the state. -/
def modify (f : σ → σ) : Action σ Unit := fun s => ⟨.ok (), f s, []⟩

/-- An event. -/
def report (e : Event) : Action σ Unit := fun s => ⟨.ok (), s, [e]⟩

/-- A result or a failure that does not depend on the state. -/
def ofExcept : Except Fault α → Action σ α
  | .ok a => Action.pure a
  | .error e => fail e

/-- The same action, with a failure made part of its result. -/
def attempt (x : Action σ α) : Action σ (Except Fault α) := fun s =>
  let o := x s
  ⟨.ok o.result, o.state, o.events⟩

/-- An action on a part of a larger state. -/
def zoom (part : τ → σ) (replace : τ → σ → τ) (x : Action σ α) : Action τ α := fun t =>
  let o := x (part t)
  ⟨o.result, replace t o.state, o.events⟩

/-! ## Equations -/

@[simp] theorem run_pure (a : α) (s : σ) : (pure a : Action σ α).run s = ⟨.ok a, s, []⟩ := rfl

@[simp] theorem run_fail (e : Fault) (s : σ) :
    (fail e : Action σ α).run s = ⟨.error e, s, []⟩ := rfl

@[simp] theorem run_get (s : σ) : (get : Action σ σ).run s = ⟨.ok s, s, []⟩ := rfl

@[simp] theorem run_modify (f : σ → σ) (s : σ) : (modify f).run s = ⟨.ok (), f s, []⟩ := rfl

@[simp] theorem run_report (e : Event) (s : σ) : (report e).run s = ⟨.ok (), s, [e]⟩ := rfl

theorem run_bind_ok {x : Action σ α} {f : α → Action σ β} {s s' : σ} {a : α} {es : List Event}
    (h : x.run s = ⟨.ok a, s', es⟩) :
    (x >>= f).run s =
      ⟨((f a).run s').result, ((f a).run s').state, es ++ ((f a).run s').events⟩ := by
  simp only [run] at h ⊢
  simp only [bind, Action.bind, h]

theorem run_bind_error {x : Action σ α} {f : α → Action σ β} {s s' : σ} {e : Fault}
    {es : List Event} (h : x.run s = ⟨.error e, s', es⟩) :
    (x >>= f).run s = ⟨.error e, s', es⟩ := by
  simp only [run] at h ⊢
  simp only [bind, Action.bind, h]

instance : LawfulMonad (Action σ) := LawfulMonad.mk' _
  (by
    intro α x
    funext s
    show Action.bind x (fun a => Action.pure a) s = x s
    rcases h : x s with ⟨r, s', es⟩
    cases r <;> simp [Action.bind, Action.pure, h])
  (by
    intro α β a f
    funext s
    show Action.bind (Action.pure a) f s = f a s
    simp [Action.bind, Action.pure])
  (by
    intro α β γ x f g
    funext s
    show Action.bind (Action.bind x f) g s = Action.bind x (fun a => Action.bind (f a) g) s
    rcases h : x s with ⟨r, s', es⟩
    cases r with
    | error e => simp [Action.bind, h]
    | ok a =>
      rcases h' : f a s' with ⟨r', s'', es'⟩
      cases r' <;> simp [Action.bind, h, h'])

end Action

end StyleTree
