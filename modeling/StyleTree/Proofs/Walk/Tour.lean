import StyleTree.Proofs.Walk.Keeps

/-!
# Walks that go the same way

Two walks with different plans can be the same walk for all that matters: the same nodes in the same
order, the same tree at every moment, the same result.  This is shown handler call by handler call,
and once for all plans.

* `Action.Agree`: from two related states, two actions have the same result, end in related states
  again and report the same events, as far as one cares for events.
* `Walk.tour`: a visit whose plan may depend on the nodes that the walk is inside of.  A visit is a
  tour whose plan does not (`tour_const`).  Handlers know nothing of the walk, so this is the only
  way to speak about where a handler is called.
* `Walk.matches_tour`: two tours go the same way if their plans do so at every single node, whatever
  they keep their marks in.
-/

namespace StyleTree

variable {ι κ σ τ α β : Type}

/-! ## Actions that agree -/

namespace Action

/-- From two states, two actions have the same result, leave related states and report the same of
those events that are looked at. -/
structure Agree (R : σ → τ → Prop) (seen : Event → Bool) (s : σ) (t : τ) (x : Action σ α)
    (y : Action τ α) : Prop where
  result : (x.run s).result = (y.run t).result
  state : R (x.run s).state (y.run t).state
  events : (x.run s).events.filter seen = (y.run t).events.filter seen

/-- From all related states, two actions agree. -/
def Matches (R : σ → τ → Prop) (seen : Event → Bool) (x : Action σ α) (y : Action τ α) : Prop :=
  ∀ s t, R s t → Agree R seen s t x y

variable {R : σ → τ → Prop} {seen : Event → Bool} {s : σ} {t : τ}

theorem Agree.pure (h : R s t) (a : α) :
    Agree R seen s t (Pure.pure a : Action σ α) (Pure.pure a : Action τ α) :=
  ⟨rfl, h, rfl⟩

theorem Agree.fail (h : R s t) (e : Fault) :
    Agree R seen s t (Action.fail e : Action σ α) (Action.fail e : Action τ α) :=
  ⟨rfl, h, rfl⟩

theorem Agree.report (h : R s t) (e : Event) :
    Agree R seen s t (Action.report e) (Action.report e) :=
  ⟨rfl, h, rfl⟩

theorem Agree.modify {f : σ → σ} {g : τ → τ} (h : R (f s) (g t)) :
    Agree R seen s t (Action.modify f) (Action.modify g) :=
  ⟨rfl, h, rfl⟩

theorem Agree.get_bind {f : σ → Action σ α} {g : τ → Action τ α}
    (h : Agree R seen s t (f s) (g t)) :
    Agree R seen s t (Action.get >>= f) (Action.get >>= g) := by
  obtain ⟨hr, hs, he⟩ := h
  refine ⟨?_, ?_, ?_⟩ <;> rw [run_bind_ok (run_get s), run_bind_ok (run_get t)]
  · exact hr
  · exact hs
  · exact he

theorem Agree.bind {x : Action σ α} {y : Action τ α} {f : α → Action σ β} {g : α → Action τ β}
    (hxy : Agree R seen s t x y)
    (hfg : ∀ a s' t', R s' t' → Agree R seen s' t' (f a) (g a)) :
    Agree R seen s t (x >>= f) (y >>= g) := by
  obtain ⟨hr, hs, he⟩ := hxy
  rcases hx : x.run s with ⟨r, s', es⟩
  rcases hy : y.run t with ⟨r', t', es'⟩
  rw [hx, hy] at hr hs he
  obtain rfl : r = r' := hr
  cases r with
  | error e =>
    refine ⟨?_, ?_, ?_⟩ <;> rw [run_bind_error hx, run_bind_error hy]
    · exact hs
    · exact he
  | ok a =>
    obtain ⟨hr', hs', he'⟩ := hfg a s' t' hs
    refine ⟨?_, ?_, ?_⟩ <;> rw [run_bind_ok hx, run_bind_ok hy]
    · exact hr'
    · exact hs'
    · rw [List.filter_append, List.filter_append, he',
        show es.filter seen = es'.filter seen from he]

/-- Agreement is about the runs from the two states, and nothing else. -/
theorem Agree.congr {x x' : Action σ α} {y y' : Action τ α} (h : Agree R seen s t x' y')
    (hx : x.run s = x'.run s) (hy : y.run t = y'.run t) : Agree R seen s t x y := by
  obtain ⟨hr, hs, he⟩ := h
  exact ⟨by rw [hx, hy, hr], by rwa [hx, hy], by rw [hx, hy, he]⟩

theorem Matches.refl (x : Action σ α) : Matches Eq seen x x := by
  intro s t h
  subst h
  exact ⟨rfl, rfl, rfl⟩

theorem Matches.bind {x : Action σ α} {y : Action τ α} {f : α → Action σ β} {g : α → Action τ β}
    (hxy : Matches R seen x y) (hfg : ∀ a, Matches R seen (f a) (g a)) :
    Matches R seen (x >>= f) (y >>= g) :=
  fun s t h => (hxy s t h).bind hfg

end Action

open StyleTree.Action

/-! ## Workspaces and walks with the same tree -/

variable [Data]

/-- Related workspaces have the same tree, and stay related when it is exchanged in both. -/
structure Workspace.Parallel (R : Workspace ι → Workspace κ → Prop) : Prop where
  tree : ∀ s t, R s t → s.tree = t.tree
  exchange : ∀ s t u, R s t → R { s with tree := u } { t with tree := u }

theorem Workspace.parallel_eq : Workspace.Parallel (Eq (α := Workspace ι)) where
  tree := fun _ _ h => h ▸ rfl
  exchange := fun _ _ _ h => h ▸ rfl

variable {R : Workspace ι → Workspace κ → Prop} {seen : Event → Bool}

/-- An edit does the same to related workspaces. -/
theorem Workspace.Parallel.edit (hR : Workspace.Parallel R) (x : Edit α) :
    Matches R seen (x.onWorkspace : Action (Workspace ι) α) x.onWorkspace := by
  intro s t h
  have htree := hR.tree s t h
  refine ⟨?_, ?_, ?_⟩
  · show (x.run s.tree).result = (x.run t.tree).result
    rw [htree]
  · show R { s with tree := (x.run s.tree).state } { t with tree := (x.run t.tree).state }
    rw [htree]
    exact hR.exchange s t _ h
  · show (x.run s.tree).events.filter seen = (x.run t.tree).events.filter seen
    rw [htree]

variable {μ ν : Type} {S : μ → ν → Prop}

section Marks

variable [Marks μ] [Marks ν]

/-- Related containers have the same nodes, and stay related when one is added to both. -/
structure Marks.Parallel (S : μ → ν → Prop) : Prop where
  has : ∀ a b, S a b → ∀ x, Marks.has a x = Marks.has b x
  add : ∀ a b x, S a b → S (Marks.add a x) (Marks.add b x)

omit [Data] in
theorem Marks.parallel_eq : Marks.Parallel (Eq (α := Std.HashSet Handle)) where
  has := by
    rintro a b rfl x
    rfl
  add := by
    rintro a b x rfl
    rfl

end Marks

namespace Walk

/-- Two walks have come equally far, and their workspaces and their marks are related. -/
structure Over (R : Workspace ι → Workspace κ → Prop) (S : μ → ν → Prop) (w : Walk ι μ)
    (w' : Walk κ ν) : Prop where
  workspace : R w.workspace w'.workspace
  started : w.started = w'.started
  finalized : S w.finalized w'.finalized

theorem matches_onWorkspace {x : Action (Workspace ι) α} {y : Action (Workspace κ) α}
    (h : Matches R seen x y) : Matches (Over R S) seen (onWorkspace x) (onWorkspace y) := by
  rintro w w' ⟨hw, hs, hf⟩
  obtain ⟨hr, hstate, he⟩ := h w.workspace w'.workspace hw
  exact ⟨hr, ⟨hstate, hs, hf⟩, he⟩

variable [Marks μ] [Marks ν]

section Over

variable {w : Walk ι μ} {w' : Walk κ ν}

theorem Over.firstOpenChild (hR : Workspace.Parallel R) (hS : Marks.Parallel S)
    (h : Over R S w w') (id : Handle) : w.firstOpenChild id = w'.firstOpenChild id := by
  unfold Walk.firstOpenChild
  simp only [hR.tree _ _ h.workspace, hS.has _ _ h.finalized]

theorem Over.openChildren (hR : Workspace.Parallel R) (hS : Marks.Parallel S)
    (h : Over R S w w') (id : Handle) : w.openChildren id = w'.openChildren id := by
  unfold Walk.openChildren
  simp only [hR.tree _ _ h.workspace, hS.has _ _ h.finalized]

end Over

/-! ## Tours -/

/-- A visit whose plan may depend on the nodes that the walk is inside of when it comes to a node:
those whose visits have begun and not ended, the innermost first. -/
def tour (plans : List Handle → Plan ι) :
    List Handle → Nat → Option String → Handle → Action (Walk ι μ) Unit
  | _, 0, _, _ => Action.fail .unfinished
  | around, n + 1, context, id => do
    let own ← onWorkspace (arrive (plans around) id)
    if isForeign context own then
      Action.report (.pruningNode id (own.getD "") (context.getD ""))
      let _ ← onWorkspace (Edit.remove id).onWorkspace
    else
      children (fun child => tour plans (id :: around) n (context <|> own) child) id n
      finalize (plans around) id

/-- A tour whose plan is the same everywhere is a visit. -/
theorem tour_const (plan : Plan ι) (around : List Handle) (n : Nat) (context : Option String)
    (id : Handle) :
    tour (μ := μ) (fun _ => plan) around n context id = visit plan n context id := by
  induction n generalizing around context id with
  | zero => rfl
  | succ n ih =>
    unfold tour visit
    simp only [ih]

theorem yields_tour_succ {plans : List Handle → Plan ι} {around : List Handle} {n : Nat}
    {context : Option String} {id : Handle} {w : Walk ι μ} {Q : Unit → Walk ι μ → Prop}
    {F : Fault → Walk ι μ → Prop} : (tour plans around (n + 1) context id).Yields w Q F ↔
    (arrive (plans around) id).Yields w.workspace
      (fun own s =>
        if isForeign context own then
          (Edit.remove id).Yields s.tree
            (fun _ t => Q () { w with workspace := { s with tree := t } })
            (fun e t => F e { w with workspace := { s with tree := t } })
        else
          (children (tour plans (id :: around) n (context <|> own)) id n).Yields
            { w with workspace := s } (fun _ w' => (finalize (plans around) id).Yields w' Q F) F)
      (fun e s => F e { w with workspace := s }) := by
  rw [tour, yields_bind, yields_onWorkspace]
  refine Yields.congr (fun own s => ?_) fun _ _ => Iff.rfl
  split
  · rw [yields_bind, yields_report, yields_bind, yields_onWorkspace, Edit.yields_onWorkspace]
    rfl
  · rw [yields_bind]

/-- At a node, the handlers of two plans do the same to related workspaces. -/
def SameCalls (R : Workspace ι → Workspace κ → Prop) (seen : Event → Bool) (P : Plan ι)
    (Q : Plan κ) : Prop :=
  ∀ phase id, Matches R seen (runModules P.support phase id P.modules)
    (runModules Q.support phase id Q.modules)

section Tours

variable {P : Plan ι} {Q : Plan κ}

theorem matches_arrive (hR : Workspace.Parallel R) (h : SameCalls R seen P Q) (id : Handle) :
    Matches R seen (arrive P id) (arrive Q id) := by
  unfold arrive
  refine (hR.edit _).bind fun n => ?_
  split
  · exact (h .before id).bind fun _ => (hR.edit _).bind fun m s t hst => Agree.pure hst _
  · exact (hR.edit _).bind fun m s t hst => Agree.pure hst _

theorem matches_finalize (hR : Workspace.Parallel R) (hS : Marks.Parallel S)
    (h : SameCalls R seen P Q) (id : Handle) :
    Matches (Over R S) seen (finalize P id) (finalize Q id) := by
  unfold finalize
  refine Matches.bind (fun w w' hw => Agree.modify ?_) fun _ => ?_
  · exact ⟨hw.workspace, by rw [hw.openChildren hR hS id, hw.started], hw.finalized⟩
  refine (matches_onWorkspace (h .after id)).bind fun _ => ?_
  refine Matches.bind (fun w w' hw => Agree.modify ?_) fun _ w w' hw => Agree.report hw _
  exact ⟨hw.workspace, hw.started, hS.add _ _ id hw.finalized⟩

theorem matches_children (hR : Workspace.Parallel R) (hS : Marks.Parallel S)
    {visit : Handle → Action (Walk ι μ) Unit} {visit' : Handle → Action (Walk κ ν) Unit}
    (h : ∀ child, Matches (Over R S) seen (visit child) (visit' child)) (id : Handle) (n : Nat) :
    Matches (Over R S) seen (children visit id n) (children visit' id n) := by
  induction n with
  | zero => exact fun w w' hw => Agree.fail hw _
  | succ n ih =>
    intro w w' hw
    refine Agree.get_bind ?_
    rw [hw.firstOpenChild hR hS id]
    cases w'.firstOpenChild id with
    | none => exact Agree.pure hw _
    | some child => exact (h child w w' hw).bind fun _ => ih

/-- Two tours go the same way if their plans do so at every node, whatever they keep their marks
in. -/
theorem matches_tour {P : List Handle → Plan ι} {Q : List Handle → Plan κ}
    (hR : Workspace.Parallel R) (hS : Marks.Parallel S)
    (h : ∀ around, SameCalls R seen (P around) (Q around)) (around : List Handle) (n : Nat)
    (context : Option String) (id : Handle) :
    Matches (Over R S) seen (tour P around n context id) (tour Q around n context id) := by
  induction n generalizing around context id with
  | zero => exact fun w w' hw => Agree.fail hw _
  | succ n ih =>
    unfold tour
    refine (matches_onWorkspace (matches_arrive hR (h around) id)).bind fun own => ?_
    split
    · refine Matches.bind (fun w w' hw => Agree.report hw _) fun _ => ?_
      exact (matches_onWorkspace (hR.edit _)).bind fun _ w w' hw => Agree.pure hw _
    · refine Matches.bind (matches_children hR hS (fun child => ih _ _ child) id n) fun _ => ?_
      exact matches_finalize hR hS (h around) id

end Tours

end Walk

end StyleTree
