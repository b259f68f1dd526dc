import StyleTree.Proofs.Walk.Calls

/-!
# Modules and gates are transparent

Plugins come in modules and stand behind gates.  Neither shows in what a walk does.  A module stops
when the node is gone, but then every later module stops too, so the modules of a plan are one long
module (`runModules_eq_run_flatten`).  A plugin whose gate is closed is asked and passed over, and
reports that it was; apart from this report it could be left out (`PluginModule.matches_opened`).

`applyAt_merged` says so of whole walks: a plan and its merged plan, one module without a gate, have
the same result, the same tree and the same handler calls.
-/

namespace StyleTree

open StyleTree.Action

variable [Data] {ι : Type}

/-! ## One module -/

section Module

variable {support : Option Targets} {phase : Phase} {id : Handle}

/-- On a node that is gone, a module does nothing. -/
theorem PluginModule.run_of_gone {s : Workspace ι} (h : s.tree.get? id = none)
    (module : PluginModule ι) :
    (PluginModule.run support phase id module).run s =
      (pure () : Action (Workspace ι) Unit).run s := by
  cases module with
  | nil => rfl
  | cons p ps =>
    rw [PluginModule.run, run_bind_ok (run_get s), h]
    rfl

/-- On a node that is there, a module runs its first plugin and then the others. -/
theorem PluginModule.run_of_live {s : Workspace ι} {node : Node} (h : s.tree.get? id = some node)
    (p : Plugin ι) (ps : PluginModule ι) :
    (PluginModule.run support phase id (p :: ps)).run s =
      (p.run support phase id node >>= fun _ => PluginModule.run support phase id ps).run s := by
  rw [PluginModule.run, run_bind_ok (run_get s), h]
  rfl

/-- Where a module is cut in two makes no difference, although each part stops by itself. -/
theorem PluginModule.run_append (ps qs : PluginModule ι) :
    PluginModule.run support phase id (ps ++ qs) =
      PluginModule.run support phase id ps >>= fun _ => PluginModule.run support phase id qs := by
  induction ps with
  | nil => exact (pure_bind () fun _ => PluginModule.run support phase id qs).symm
  | cons p ps ih =>
    rw [List.cons_append, PluginModule.run, PluginModule.run, bind_assoc]
    funext s
    show (Action.get >>= _).run s = (Action.get >>= _).run s
    rw [run_bind_ok (run_get s), run_bind_ok (run_get s)]
    cases h : s.tree.get? id with
    | none =>
      -- the second part is asked about a node that is gone as well
      dsimp only
      rw [pure_bind, PluginModule.run_of_gone h]
    | some node => rw [ih, bind_assoc]

/-- The modules of a plan are one long module. -/
theorem runModules_eq_run_flatten (modules : List (PluginModule ι)) :
    runModules support phase id modules = PluginModule.run support phase id modules.flatten := by
  induction modules with
  | nil => rfl
  | cons module modules ih =>
    rw [List.flatten_cons, PluginModule.run_append, ← ih]
    rfl

end Module

/-! ## No gate -/

/-- Whether an event is anything else than the notice that a plugin was passed over. -/
def Event.isNoSkip : Event → Bool
  | .fixNotNeeded .. => false
  | _ => true

/-- The plugins of a module whose gates are open. -/
def PluginModule.opened (support : Option Targets) (module : PluginModule ι) : PluginModule ι :=
  module.filter fun p => gateOpen support p.native

/-- The plan with all its plugins in one module, less those whose gates are closed, and without a
gate. -/
def Plan.merged (plan : Plan ι) : Plan ι where
  modules := [PluginModule.opened plan.support plan.modules.flatten]
  support := none

section Gates

variable {support : Option Targets} {phase : Phase} {id : Handle}

theorem Plugin.run_of_open {p : Plugin ι} (h : gateOpen support p.native = true) (node : Node) :
    p.run support phase id node = p.run none phase id node := by
  unfold Plugin.run
  simp only [h, gateOpen_none_left, if_true]

theorem Plugin.matches_of_closed {p : Plugin ι} (h : ¬ gateOpen support p.native = true)
    (node : Node) : Matches Eq Event.isNoSkip (p.run support phase id node) (pure ()) := by
  rintro s _ rfl
  unfold Plugin.run
  split
  · exact Agree.pure rfl ()
  · rw [if_neg h]
    exact ⟨rfl, rfl, rfl⟩

/-- A module behind its gates does what its opened plugins do without any. -/
theorem PluginModule.matches_opened (module : PluginModule ι) :
    Matches Eq Event.isNoSkip (PluginModule.run support phase id module)
      (PluginModule.run none phase id (PluginModule.opened support module)) := by
  induction module with
  | nil => exact Matches.refl _
  | cons p ps ih =>
    rintro s _ rfl
    cases hnode : s.tree.get? id with
    | none =>
      exact (Matches.refl (pure ()) s s rfl).congr (run_of_gone hnode _) (run_of_gone hnode _)
    | some node =>
      by_cases hopen : gateOpen support p.native = true
      · have hcons : opened support (p :: ps) = p :: opened support ps :=
          List.filter_cons_of_pos hopen
        rw [hcons]
        refine Agree.congr ?_ (run_of_live hnode p ps) (run_of_live hnode p _)
        rw [Plugin.run_of_open hopen]
        exact (Matches.refl _).bind (fun _ => ih) s s rfl
      · have hcons : opened support (p :: ps) = opened support ps :=
          List.filter_cons_of_neg hopen
        rw [hcons]
        have hpure := pure_bind (m := Action (Workspace ι)) () fun _ =>
          run none phase id (opened support ps)
        rw [← hpure]
        refine Agree.congr ?_ (run_of_live hnode p ps) rfl
        exact (Plugin.matches_of_closed hopen node).bind (fun _ => ih) s s rfl

/-- At every node, a plan and its merged plan do the same. -/
theorem Plan.sameCalls_merged (plan : Plan ι) :
    Walk.SameCalls Eq Event.isNoSkip plan plan.merged := by
  intro phase id
  rw [runModules_eq_run_flatten, runModules_eq_run_flatten]
  show Matches _ _ _ (PluginModule.run none phase id [PluginModule.opened _ _].flatten)
  rw [List.flatten_singleton]
  exact PluginModule.matches_opened _

end Gates

/-! ## Whole walks -/

/-- Merging and recording a plan can be done in any order. -/
theorem Plan.recorded_merged (plan : Plan ι) (around : List Handle) :
    plan.merged.recorded around = (plan.recorded around).merged := by
  unfold Plan.recorded Plan.merged PluginModule.opened
  simp only [List.map_cons, List.map_nil, ← List.map_flatten, List.filter_map]
  rfl

/-- Two walks that go the same way from a node go the same way as traversals of what is below it. -/
theorem Plan.agree_applyAt {P Q : Plan ι} {seen : Event → Bool} (h : Walk.SameCalls Eq seen P Q)
    (steps : Nat) (id : Handle) (context : Option String) (w : Workspace ι) :
    Agree Eq seen w w (P.applyAt steps id context) (Q.applyAt steps id context) := by
  have hvisit : Matches (Walk.Over Eq (Eq (α := Std.HashSet Handle))) seen
      (Walk.visit P steps context id) (Walk.visit Q steps context id) := by
    have htour := Walk.matches_tour Workspace.parallel_eq Marks.parallel_eq
      (P := fun _ => P) (Q := fun _ => Q) (fun _ => h) [] steps context id
    rwa [Walk.tour_const, Walk.tour_const] at htour
  have hwalk : Matches (Walk.Over Eq Eq) seen (P.walk steps id context)
      (Q.walk steps id context) := by
    refine hvisit.bind fun _ s t hst => Agree.get_bind ?_
    rw [hst.finalized]
    exact Agree.report hst _
  obtain ⟨hresult, hstate, hevents⟩ := hwalk (Walk.start w) (Walk.start w) ⟨rfl, rfl, rfl⟩
  exact ⟨hresult, hstate.workspace, hevents⟩

/-- Gating and grouping are transparent: a plan applied to a node, and the plan of one module
without a gate that has the plugins with open gates in the same order, have the same result, leave
the same tree and the same client, call the same handlers on the same nodes with the same outcomes,
and report the same, apart from the notices that a plugin was passed over. -/
theorem applyAt_merged (plan : Plan ι) (steps : Nat) (id : Handle) (context : Option String)
    (w : Workspace ι) :
    let gated := (plan.applyAt steps id context).run w
    let merged := (plan.merged.applyAt steps id context).run w
    gated.result = merged.result ∧ gated.state = merged.state ∧
      plan.calls steps id context w = plan.merged.calls steps id context w ∧
      gated.events.filter Event.isNoSkip = merged.events.filter Event.isNoSkip := by
  obtain ⟨hresult, hstate, hevents⟩ := Plan.agree_applyAt plan.sameCalls_merged steps id context w
  refine ⟨hresult, hstate, ?_, hevents⟩
  have hrecorded : ∀ around, Walk.SameCalls Eq Event.isNoSkip (plan.recorded around)
      (plan.merged.recorded around) := by
    intro around
    rw [Plan.recorded_merged]
    exact (plan.recorded around).sameCalls_merged
  have htour := Walk.matches_tour Workspace.parallel_eq Marks.parallel_eq hrecorded []
    steps context id (Walk.start w.unrecorded) (Walk.start w.unrecorded) ⟨rfl, rfl, rfl⟩
  exact congrArg (fun s => s.client.calls) htour.state.workspace

end StyleTree
