import StyleTree.Action

/-!
# What an action yields

A statement about an action has two sides, because a failed action leaves a state too: what holds of
the result and the state when it succeeds, and what holds of the fault and the state when it fails.
`Yields` is both at once, from one state.  It is computed along the action, one equation for each
way of building actions, so a statement about a long action unfolds into one about its parts and no
proof looks at the runs themselves.

An action never fails if the second side is `False`; an action keeps a property in every outcome if
the two sides are that property (`yields_state_iff`).
-/

namespace StyleTree.Action

variable {σ τ α β : Type} {Q : α → σ → Prop} {E : Fault → σ → Prop}

/-- From a state the action either succeeds with `Q` or fails with `E`. -/
def Yields (x : Action σ α) (s : σ) (Q : α → σ → Prop) (E : Fault → σ → Prop) : Prop :=
  match (x.run s).result with
  | .ok a => Q a (x.run s).state
  | .error e => E e (x.run s).state

theorem Yields.of_ok {x : Action σ α} {s : σ} {a : α} (h : x.Yields s Q E)
    (hr : (x.run s).result = .ok a) : Q a (x.run s).state := by
  rw [Yields, hr] at h
  exact h

theorem Yields.of_error {x : Action σ α} {s : σ} {e : Fault} (h : x.Yields s Q E)
    (hr : (x.run s).result = .error e) : E e (x.run s).state := by
  rw [Yields, hr] at h
  exact h

/-- An action that does not fail succeeds. -/
theorem Yields.exists_ok {x : Action σ α} {s : σ} (h : x.Yields s Q fun _ _ => False) :
    ∃ a, (x.run s).result = .ok a ∧ Q a (x.run s).state := by
  unfold Yields at h
  split at h
  · next a ha => exact ⟨a, ha, h⟩
  · exact h.elim

/-- An action that does not succeed fails. -/
theorem Yields.exists_error {x : Action σ α} {s : σ} (h : x.Yields s (fun _ _ => False) E) :
    ∃ e, (x.run s).result = .error e ∧ E e (x.run s).state := by
  unfold Yields at h
  split at h
  · exact h.elim
  · next e he => exact ⟨e, he, h⟩

theorem Yields.mono {x : Action σ α} {s : σ} {Q' : α → σ → Prop} {E' : Fault → σ → Prop}
    (h : x.Yields s Q E) (hQ : ∀ a s', Q a s' → Q' a s') (hE : ∀ e s', E e s' → E' e s') :
    x.Yields s Q' E' := by
  unfold Yields at h ⊢
  split
  · next a ha =>
    rw [ha] at h
    exact hQ _ _ h
  · next e he =>
    rw [he] at h
    exact hE _ _ h

/-- What holds of an action in two ways holds of it in both. -/
theorem Yields.and {x : Action σ α} {s : σ} {Q' : α → σ → Prop} {E' : Fault → σ → Prop}
    (h : x.Yields s Q E) (h' : x.Yields s Q' E') :
    x.Yields s (fun a s' => Q a s' ∧ Q' a s') (fun e s' => E e s' ∧ E' e s') := by
  unfold Yields at h h' ⊢
  split
  · next a ha =>
    rw [ha] at h h'
    exact ⟨h, h'⟩
  · next e he =>
    rw [he] at h h'
    exact ⟨h, h'⟩

/-- An action that changes nothing when it fails keeps a property if it does so when it succeeds. -/
theorem Yields.of_unchanged {x : Action σ α} {s : σ} {P : σ → Prop}
    (h : x.Yields s Q fun _ s' => s' = s) (hs : P s) (hQ : ∀ a s', Q a s' → P s') :
    x.Yields s (fun _ s' => P s') (fun _ s' => P s') :=
  h.mono hQ fun _ _ he => he ▸ hs

theorem Yields.congr {x : Action σ α} {s : σ} {Q' : α → σ → Prop} {E' : Fault → σ → Prop}
    (hQ : ∀ a s', Q a s' ↔ Q' a s') (hE : ∀ e s', E e s' ↔ E' e s') :
    x.Yields s Q E ↔ x.Yields s Q' E' :=
  ⟨fun h => h.mono (fun a s' => (hQ a s').mp) fun e s' => (hE e s').mp,
    fun h => h.mono (fun a s' => (hQ a s').mpr) fun e s' => (hE e s').mpr⟩

/-- An action that is known to succeed. -/
theorem yields_iff_of_ok {x : Action σ α} {s : σ} {a : α} (h : (x.run s).result = .ok a) :
    x.Yields s Q E ↔ Q a (x.run s).state := by
  rw [Yields, h]

/-- A property of the state alone, in every outcome. -/
theorem yields_state_iff (x : Action σ α) (s : σ) (P : σ → Prop) :
    x.Yields s (fun _ s' => P s') (fun _ s' => P s') ↔ P (x.run s).state := by
  unfold Yields
  split <;> rfl

@[simp] theorem yields_pure (a : α) (s : σ) : (pure a : Action σ α).Yields s Q E ↔ Q a s :=
  Iff.rfl

@[simp] theorem yields_fail (e : Fault) (s : σ) : (fail e : Action σ α).Yields s Q E ↔ E e s :=
  Iff.rfl

@[simp] theorem yields_get (s : σ) {Q : σ → σ → Prop} :
    (get : Action σ σ).Yields s Q E ↔ Q s s :=
  Iff.rfl

@[simp] theorem yields_modify (f : σ → σ) (s : σ) {Q : Unit → σ → Prop} :
    (modify f).Yields s Q E ↔ Q () (f s) :=
  Iff.rfl

@[simp] theorem yields_report (e : Event) (s : σ) {Q : Unit → σ → Prop} :
    (report e).Yields s Q E ↔ Q () s :=
  Iff.rfl

theorem yields_ofExcept (r : Except Fault α) (s : σ) :
    (ofExcept r : Action σ α).Yields s Q E ↔
      match r with
      | .ok a => Q a s
      | .error e => E e s := by
  cases r <;> rfl

@[simp] theorem yields_bind (x : Action σ α) (f : α → Action σ β) (s : σ) {Q : β → σ → Prop} :
    (x >>= f).Yields s Q E ↔ x.Yields s (fun a s' => (f a).Yields s' Q E) E := by
  unfold Yields
  rcases h : x.run s with ⟨r, s', es⟩
  cases r with
  | ok a => rw [run_bind_ok h]
  | error e => rw [run_bind_error h]

@[simp] theorem yields_map (f : α → β) (x : Action σ α) (s : σ) {Q : β → σ → Prop} :
    (f <$> x).Yields s Q E ↔ x.Yields s (fun a s' => Q (f a) s') E := by
  rw [← bind_pure_comp, yields_bind]
  rfl

/-- What is made of a result does not show in the state. -/
theorem state_bind_pure (x : Action σ α) (f : α → β) (s : σ) :
    ((x >>= fun a => pure (f a)).run s).state = (x.run s).state := by
  rcases h : x.run s with ⟨r, s', es⟩
  cases r with
  | ok a => rw [run_bind_ok h]; rfl
  | error e => rw [run_bind_error h]

theorem yields_zoom (part : τ → σ) (replace : τ → σ → τ) (x : Action σ α) (w : τ)
    {Q : α → τ → Prop} {E : Fault → τ → Prop} :
    (zoom part replace x).Yields w Q E ↔
      x.Yields (part w) (fun a s => Q a (replace w s)) (fun e s => E e (replace w s)) :=
  Iff.rfl

theorem yields_attempt (x : Action σ α) (s : σ) {Q : Except Fault α → σ → Prop} :
    (attempt x).Yields s Q E ↔
      x.Yields s (fun a s' => Q (.ok a) s') (fun e s' => Q (.error e) s') := by
  show Q (x.run s).result (x.run s).state ↔ _
  unfold Yields
  cases (x.run s).result <;> rfl

end StyleTree.Action
