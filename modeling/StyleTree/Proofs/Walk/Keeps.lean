import StyleTree.Proofs.Edit.Outcome
import StyleTree.Walk

/-!
# What a walk keeps

A walk calls handlers and removes nodes; it does nothing else to a workspace.  So a property that
every handler keeps and that removal keeps is kept by a walk, however the walk goes and whether it
ends, fails or runs out of steps.  This is the only induction over walks that invariants need.

* `Holds I E x`: from a state with `I` the action `x` succeeds with `I` or fails with `E`; in
  particular `Keeps I x`, where both are the same property, and the case that `x` does not fail.
* `Plugin.Has`: the handlers that a plugin can call.
* `holds_run`, `holds_runModules`, `keeps_applyAt`, `keeps_apply`: from handlers to modules to
  walks.
-/

namespace StyleTree

variable {ι σ α β : Type}

/-! ## Properties that actions keep -/

/-- From every state with `I` the action succeeds with `I` or fails with `E`. -/
def Action.Holds (I E : σ → Prop) (x : Action σ α) : Prop :=
  ∀ s, I s → x.Yields s (fun _ s' => I s') (fun _ s' => E s')

/-- Whatever its outcome, the action keeps a property of the state. -/
abbrev Action.Keeps (I : σ → Prop) (x : Action σ α) : Prop :=
  x.Holds I I

namespace Action

variable {I E : σ → Prop} {x : Action σ α} {f : α → Action σ β}

theorem Holds.pure (a : α) : (Pure.pure a : Action σ α).Holds I E :=
  fun _ hs => hs

theorem Holds.get : (Action.get : Action σ σ).Holds I E :=
  fun _ hs => hs

theorem Holds.report (e : Event) : (Action.report e).Holds I E :=
  fun _ hs => hs

theorem Holds.modify {g : σ → σ} (h : ∀ s, I s → I (g s)) : (Action.modify g).Holds I E :=
  h

theorem Holds.bind (hx : x.Holds I E) (hf : ∀ a, (f a).Holds I E) : (x >>= f).Holds I E := by
  intro s hs
  rw [yields_bind]
  exact (hx s hs).mono (fun a s' hs' => hf a s' hs') fun _ _ hs' => hs'

theorem Holds.forM {l : List β} {g : β → Action σ PUnit} (h : ∀ b ∈ l, (g b).Holds I E) :
    (l.forM g).Holds I E := by
  induction l with
  | nil => exact Holds.pure _
  | cons b l ih =>
    exact (h b (List.mem_cons_self ..)).bind fun _ => ih fun c hc => h c (List.mem_cons_of_mem _ hc)

theorem Keeps.fail (e : Fault) : (Action.fail e : Action σ α).Keeps I :=
  fun _ hs => hs

theorem Keeps.attempt (hx : x.Keeps I) : (Action.attempt x).Keeps I := by
  intro s hs
  rw [yields_attempt]
  exact hx s hs

theorem Keeps.state (h : x.Keeps I) {s : σ} (hs : I s) : I (x.run s).state :=
  (yields_state_iff x s I).mp (h s hs)

end Action

open StyleTree.Action

variable [Data] {I E : Workspace ι → Prop} {support : Option Targets} {phase : Phase} {id : Handle}

/-! ## Handlers and modules -/

/-- A plugin can call a handler: it is what one of its reactions comes to for some node. -/
def Plugin.Has (p : Plugin ι) (handler : Handler ι) : Prop :=
  ∃ kind phase reaction node,
    p.reaction kind phase = some reaction ∧ reaction.resolve node = some handler

/-- Every handler of a module satisfies a property. -/
def PluginModule.All (P : Handler ι → Prop) (module : PluginModule ι) : Prop :=
  ∀ p ∈ module, ∀ handler, p.Has handler → P handler

/-- Every handler of a plan satisfies a property. -/
def Plan.All (P : Handler ι → Prop) (plan : Plan ι) : Prop :=
  ∀ module ∈ plan.modules, PluginModule.All P module

/-- A plugin with one handler for the nodes of a kind can call no other. -/
theorem Plugin.Has.eq_of_register {name : String} {native : Option NativeMap} {kind : Kind}
    {handler handler' : Handler ι}
    (h : ((Plugin.new name native).register kind phase none handler).Has handler') :
    handler' = handler := by
  obtain ⟨kind', phase', reaction, node, hreaction, hresolve⟩ := h
  unfold Plugin.register at hreaction
  by_cases hsame : kind' = kind ∧ phase' = phase
  · obtain ⟨rfl, rfl⟩ := hsame
    rw [Plugin.reaction_setReaction_self] at hreaction
    cases hreaction
    cases hresolve
    rfl
  · rw [Plugin.reaction_setReaction_of_ne _ _ hsame] at hreaction
    exact absurd hreaction (by simp [Plugin.new])

/-- The plan of one plugin with one handler satisfies what the handler satisfies. -/
theorem Plan.all_register {P : Handler ι → Prop} {name : String} {native : Option NativeMap}
    {kind : Kind} {handler : Handler ι} (h : P handler) :
    Plan.All P ⟨[[(Plugin.new name native).register kind phase none handler]], support⟩ := by
  intro module hmodule p hp handler' hhandler
  obtain rfl := List.mem_singleton.mp hmodule
  obtain rfl := List.mem_singleton.mp hp
  rwa [hhandler.eq_of_register]

theorem Plugin.holds_run {p : Plugin ι} (h : ∀ handler, p.Has handler → (handler id).Holds I E)
    (node : Node) : (p.run support phase id node).Holds I E := by
  unfold Plugin.run
  split
  · exact Holds.pure _
  · next reaction hreaction =>
    split
    · split
      · exact Holds.pure _
      · next handler hresolve =>
        exact (Holds.report _).bind fun _ => h handler ⟨_, _, reaction, node, hreaction, hresolve⟩
    · exact Holds.report _

theorem PluginModule.holds_run {module : PluginModule ι}
    (h : module.All fun handler => (handler id).Holds I E) :
    (PluginModule.run support phase id module).Holds I E := by
  induction module with
  | nil => exact Holds.pure _
  | cons p ps ih =>
    refine Holds.get.bind fun w => ?_
    split
    · exact Holds.pure _
    · refine (Plugin.holds_run (h p (List.mem_cons_self ..)) _).bind fun _ => ih ?_
      exact fun q hq => h q (List.mem_cons_of_mem _ hq)

theorem holds_runModules {modules : List (PluginModule ι)}
    (h : ∀ module ∈ modules, module.All fun handler => (handler id).Holds I E) :
    (runModules support phase id modules).Holds I E :=
  Holds.forM fun module hmodule => PluginModule.holds_run (h module hmodule)

/-! ## Walks -/

theorem Edit.yields_onWorkspace {x : Edit α} {w : Workspace ι} {Q : α → Workspace ι → Prop}
    {F : Fault → Workspace ι → Prop} : x.onWorkspace.Yields w Q F ↔
      x.Yields w.tree (fun a t => Q a { w with tree := t }) (fun e t => F e { w with tree := t }) :=
  yields_zoom ..

theorem Edit.yields_node_onWorkspace {w : Workspace ι} {Q : Node → Workspace ι → Prop}
    {F : Fault → Workspace ι → Prop} : (Edit.node id).onWorkspace.Yields w Q F ↔
      (∀ n, w.tree.get? id = some n → Q n w) ∧ (w.tree.get? id = none → F .invalidNode w) := by
  rw [Edit.yields_onWorkspace, Edit.yields_node]

namespace Walk

variable {μ : Type}

theorem yields_onWorkspace {x : Action (Workspace ι) α} {w : Walk ι μ} {Q : α → Walk ι μ → Prop}
    {F : Fault → Walk ι μ → Prop} : (onWorkspace x).Yields w Q F ↔
      x.Yields w.workspace (fun a s => Q a { w with workspace := s })
        (fun e s => F e { w with workspace := s }) :=
  yields_zoom ..

section Equations

variable {plan : Plan ι} {w : Walk ι} {n : Nat} {context : Option String}
  {Q : Unit → Walk ι → Prop} {F : Fault → Walk ι → Prop}

theorem yields_children_succ {visit : Handle → Action (Walk ι) Unit} :
    (children visit id (n + 1)).Yields w Q F ↔
      match w.firstOpenChild id with
      | none => Q () w
      | some child =>
        (visit child).Yields w (fun _ w' => (children visit id n).Yields w' Q F) F := by
  rw [children, yields_bind, yields_get]
  cases w.firstOpenChild id with
  | none => rfl
  | some child => rw [yields_bind]

theorem yields_finalize_iff : (finalize plan id).Yields w Q F ↔
    (runModules plan.support .after id plan.modules).Yields w.workspace
      (fun _ s => Q () ⟨s, ⟨id, w.openChildren id⟩ :: w.started, w.finalized.insert id⟩)
      (fun e s => F e ⟨s, ⟨id, w.openChildren id⟩ :: w.started, w.finalized⟩) := by
  unfold finalize
  rw [yields_bind, yields_modify, yields_bind, yields_onWorkspace]
  rfl

theorem yields_arrive_iff {s : Workspace ι} {Q : Option String → Workspace ι → Prop}
    {F : Fault → Workspace ι → Prop} : (arrive plan id).Yields s Q F ↔
      (∀ n, s.tree.get? id = some n →
        if n.kind = .root then
          (runModules plan.support .before id plan.modules).Yields s (fun _ s' =>
            (∀ n, s'.tree.get? id = some n → Q n.vendor s') ∧
              (s'.tree.get? id = none → F .invalidNode s')) F
        else Q n.vendor s) ∧
      (s.tree.get? id = none → F .invalidNode s) := by
  unfold arrive
  rw [yields_bind, Edit.yields_node_onWorkspace]
  refine and_congr_left' (forall_congr' fun n => imp_congr_right fun hn => ?_)
  split
  · rw [yields_bind]
    refine Yields.congr (fun _ s' => ?_) fun _ _ => Iff.rfl
    rw [yields_bind, Edit.yields_node_onWorkspace]
    rfl
  · rw [yields_bind, Edit.yields_node_onWorkspace, hn]
    simp

theorem yields_visit_succ : (visit plan (n + 1) context id).Yields w Q F ↔
    (arrive plan id).Yields w.workspace
      (fun own s =>
        if isForeign context own then
          (Edit.remove id).Yields s.tree
            (fun _ t => Q () { w with workspace := { s with tree := t } })
            (fun e t => F e { w with workspace := { s with tree := t } })
        else
          (children (visit plan n (context <|> own)) id n).Yields { w with workspace := s }
            (fun _ w' => (finalize plan id).Yields w' Q F) F)
      (fun e s => F e { w with workspace := s }) := by
  rw [visit, yields_bind, yields_onWorkspace]
  refine Yields.congr (fun own s => ?_) fun _ _ => Iff.rfl
  split
  · rw [yields_bind, yields_report, yields_bind, yields_onWorkspace, Edit.yields_onWorkspace]
    rfl
  · rw [yields_bind]

end Equations

/-- An action on the workspace of a walk keeps of the walk what it keeps of the workspace. -/
theorem keeps_onWorkspace {x : Action (Workspace ι) α} (h : x.Keeps I) :
    (onWorkspace x).Keeps fun w : Walk ι => I w.workspace :=
  fun w hw => yields_onWorkspace.mpr (h w.workspace hw)

/-- A walk that comes to a node only runs handlers. -/
theorem keeps_arrive {plan : Plan ι} (h : plan.All fun handler => ∀ id, (handler id).Keeps I)
    (id : Handle) : (arrive plan id).Keeps I := by
  intro w hw
  refine yields_arrive_iff.mpr ⟨fun n _ => ?_, fun _ => hw⟩
  split
  · have hkeeps : (runModules plan.support .before id plan.modules).Keeps I :=
      holds_runModules fun module hm p hp handler hh => h module hm p hp handler hh id
    exact (hkeeps w hw).mono (fun _ w' hw' => ⟨fun _ _ => hw', fun _ => hw'⟩) fun _ _ hw' => hw'
  · exact hw

theorem keeps_children {J : Walk ι → Prop} {visit : Handle → Action (Walk ι) Unit}
    (h : ∀ child, (visit child).Keeps J) (id : Handle) (n : Nat) :
    (children visit id n).Keeps J := by
  induction n with
  | zero => exact Keeps.fail _
  | succ n ih =>
    refine Holds.get.bind fun w => ?_
    split
    · exact Holds.pure _
    · exact (h _).bind fun _ => ih

theorem keeps_finalize {plan : Plan ι} (h : plan.All fun handler => ∀ id, (handler id).Keeps I)
    (id : Handle) : (finalize plan id).Keeps fun w : Walk ι => I w.workspace := by
  unfold finalize
  refine Holds.bind (Holds.modify ?_) fun _ => Holds.bind ?_ fun _ =>
    Holds.bind (Holds.modify ?_) fun _ => Holds.report _
  · exact fun _ hw => hw
  · exact keeps_onWorkspace (holds_runModules fun module hm p hp handler hh =>
      h module hm p hp handler hh id)
  · exact fun _ hw => hw

theorem keeps_visit {plan : Plan ι} (h : plan.All fun handler => ∀ id, (handler id).Keeps I)
    (hremove : ∀ id, ((Edit.remove id).onWorkspace : Action (Workspace ι) Handle).Keeps I)
    (n : Nat) (context : Option String) (id : Handle) :
    (visit plan n context id).Keeps fun w : Walk ι => I w.workspace := by
  induction n generalizing context id with
  | zero => exact Keeps.fail _
  | succ n ih =>
    unfold visit
    refine (keeps_onWorkspace (keeps_arrive h id)).bind fun own => ?_
    split
    · refine (Holds.report _).bind fun _ => ?_
      exact (keeps_onWorkspace (hremove id)).bind fun _ => Holds.pure _
    · exact (keeps_children (fun child => ih _ child) id n).bind fun _ => keeps_finalize h id

end Walk

theorem Plan.keeps_applyAt {plan : Plan ι}
    (h : plan.All fun handler => ∀ id, (handler id).Keeps I)
    (hremove : ∀ id, ((Edit.remove id).onWorkspace : Action (Workspace ι) Handle).Keeps I)
    (steps : Nat) (id : Handle) (context : Option String) :
    (plan.applyAt steps id context).Keeps I := by
  intro w hw
  rw [yields_state_iff]
  have hwalk : (plan.walk steps id context).Keeps fun w => I w.workspace := by
    refine (Walk.keeps_visit h hremove steps context id).bind fun _ => ?_
    exact Holds.get.bind fun _ => Holds.report _
  exact hwalk.state (s := Walk.start w) hw

theorem Plan.keeps_apply {plan : Plan ι}
    (h : plan.All fun handler => ∀ id, (handler id).Keeps I)
    (hremove : ∀ id, ((Edit.remove id).onWorkspace : Action (Workspace ι) Handle).Keeps I)
    (steps : Nat) : (plan.apply steps).Keeps I :=
  Holds.get.bind fun w => Plan.keeps_applyAt h hremove steps w.tree.root none

end StyleTree
