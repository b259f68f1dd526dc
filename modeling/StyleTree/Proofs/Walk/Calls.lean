import StyleTree.Proofs.Walk.Tour

/-!
# The handler calls of a walk

Which handlers a walk calls, in which order, on which nodes and with which outcomes, is nowhere in
the state of the walk.  It is made visible by the handlers themselves: a recorded handler does what
the handler does and notes the call in the state of the client, which the program passes along and
never looks into.

* `Call`: a handler call, with the nodes that the walk was inside of, the trees before and after it,
  and its outcome.
* `Plan.calls`: the handler calls of a walk, the first one first.
* `Plan.over_recorded`: recording changes nothing.  The recorded walk and the walk have the same
  result, the same tree, the same progress and the same events.
* `yields_runModules_recorded`: what is to be shown of a dispatch is to be shown of each recorded
  call.
* `Plan.exists_dispatches`: the starts that a walk notes are the dispatches of the later phase, one
  for one.
-/

namespace StyleTree

open StyleTree.Action

variable [Data] {ι κ : Type}

/-- A handler call of a walk. -/
structure Call where
  /-- The name of the plugin. -/
  plugin : String
  phase : Phase
  /-- The node that the handler was called for. -/
  id : Handle
  /-- The nodes that the walk was inside of then, apart from that node: those whose visits had begun
  and not ended, the innermost first. -/
  around : List Handle
  before : Tree
  result : Except Fault Unit
  after : Tree

/-- The state of a client, and the handler calls so far. -/
structure Recorded (ι : Type) where
  client : ι
  calls : List Call

/-- The workspace without the record. -/
def Workspace.plain (w : Workspace (Recorded ι)) : Workspace ι :=
  ⟨w.tree, w.client.client⟩

/-- The workspace with an empty record. -/
def Workspace.unrecorded (w : Workspace ι) : Workspace (Recorded ι) :=
  ⟨w.tree, w.client, []⟩

/-! ## Recorded plans -/

/-- The handler that does the same and notes the call. -/
def Handler.recorded (plugin : String) (phase : Phase) (around : List Handle)
    (handler : Handler ι) : Handler (Recorded ι) := fun id w =>
  let o := (handler id).run w.plain
  let call : Call := ⟨plugin, phase, id, around, w.tree, o.result, o.state.tree⟩
  ⟨o.result, ⟨o.state.tree, o.state.client, w.client.calls ++ [call]⟩, o.events⟩

/-- The reaction with its handlers exchanged. -/
def Reaction.map (f : Handler ι → Handler κ) : Reaction ι → Reaction κ
  | direct handler => direct (f handler)
  | byName table => byName (table.map fun _ handler => f handler)

/-- The plugin with recorded handlers. -/
def Plugin.recorded (around : List Handle) (p : Plugin ι) : Plugin (Recorded ι) where
  name := p.name
  native := p.native
  reaction kind phase :=
    (p.reaction kind phase).map (Reaction.map (Handler.recorded p.name phase around))

/-- The plan with recorded handlers. -/
def Plan.recorded (plan : Plan ι) (around : List Handle) : Plan (Recorded ι) where
  modules := plan.modules.map (List.map (Plugin.recorded around))
  support := plan.support

/-- The recorded walk. -/
def Plan.recording (plan : Plan ι) (steps : Nat) (id : Handle) (context : Option String)
    (w : Workspace ι) : Outcome (Walk (Recorded ι)) Unit :=
  (Walk.tour plan.recorded [] steps context id).run (Walk.start w.unrecorded)

/-- The handler calls of a walk, the first one first. -/
def Plan.calls (plan : Plan ι) (steps : Nat) (id : Handle) (context : Option String)
    (w : Workspace ι) : List Call :=
  (plan.recording steps id context w).state.workspace.client.calls

theorem Reaction.resolve_map (f : Handler ι → Handler κ) (reaction : Reaction ι) (node : Node) :
    (reaction.map f).resolve node = (reaction.resolve node).map f := by
  cases reaction with
  | direct handler => rfl
  | byName table =>
    cases hname : node.name with
    | none => simp [Reaction.map, Reaction.resolve, hname]
    | some name =>
      cases hfamily : node.family with
      | none => cases h : table[name]? <;> simp [Reaction.map, Reaction.resolve, hname, hfamily, h]
      | some family =>
        cases h : table[name]? <;> simp [Reaction.map, Reaction.resolve, hname, hfamily, h]

/-! ## Recording changes nothing -/

/-- A workspace with a record, and the same workspace without it. -/
def Workspace.Records (s : Workspace (Recorded ι)) (t : Workspace ι) : Prop :=
  s.plain = t

/-- Every event is looked at. -/
def Event.any : Event → Bool := fun _ => true

theorem Workspace.parallel_records : Workspace.Parallel (Workspace.Records (ι := ι)) where
  tree := by
    rintro s t rfl
    rfl
  exchange := by
    rintro s t u rfl
    rfl

theorem Handler.matches_recorded (plugin : String) (phase : Phase) (around : List Handle)
    (handler : Handler ι) (id : Handle) :
    Matches Workspace.Records Event.any (handler.recorded plugin phase around id) (handler id) := by
  rintro s t rfl
  exact ⟨rfl, rfl, rfl⟩

theorem Plugin.matches_recorded (around : List Handle) (p : Plugin ι) (support : Option Targets)
    (phase : Phase) (id : Handle) (node : Node) :
    Matches Workspace.Records Event.any ((p.recorded around).run support phase id node)
      (p.run support phase id node) := by
  unfold Plugin.run Plugin.recorded
  dsimp only
  cases p.reaction node.kind phase with
  | none => exact fun s t h => Agree.pure h _
  | some reaction =>
    rw [Option.map_some]
    dsimp only
    split
    · rw [Reaction.resolve_map]
      cases reaction.resolve node with
      | none => exact fun s t h => Agree.pure h _
      | some handler =>
        exact Matches.bind (fun s t h => Agree.report h _) fun _ =>
          handler.matches_recorded p.name phase around id
    · exact fun s t h => Agree.report h _

theorem PluginModule.matches_recorded (around : List Handle) (support : Option Targets)
    (phase : Phase) (id : Handle) (module : PluginModule ι) :
    Matches Workspace.Records Event.any
      (PluginModule.run support phase id (module.map (Plugin.recorded around)))
      (PluginModule.run support phase id module) := by
  induction module with
  | nil => exact fun s t h => Agree.pure h _
  | cons p ps ih =>
    intro s t h
    refine Agree.get_bind ?_
    rw [Workspace.parallel_records.tree s t h]
    cases t.tree.get? id with
    | none => exact Agree.pure h _
    | some node => exact (p.matches_recorded around support phase id node s t h).bind fun _ => ih

theorem Plan.sameCalls_recorded (plan : Plan ι) (around : List Handle) :
    Walk.SameCalls Workspace.Records Event.any (plan.recorded around) plan := by
  intro phase id
  unfold runModules Plan.recorded
  dsimp only
  induction plan.modules with
  | nil => exact fun s t h => Agree.pure h _
  | cons module modules ih =>
    exact (PluginModule.matches_recorded around plan.support phase id module).bind fun _ => ih

/-- Recording a walk changes neither its result nor its course. -/
theorem Plan.agree_recorded (plan : Plan ι) (steps : Nat) (id : Handle) (context : Option String)
    (w : Workspace ι) :
    Agree (Walk.Over Workspace.Records Eq) Event.any (Walk.start w.unrecorded) (Walk.start w)
      (Walk.tour plan.recorded [] steps context id) (Walk.visit plan steps context id) := by
  have h := Walk.matches_tour Workspace.parallel_records Marks.parallel_eq plan.sameCalls_recorded
    [] steps context id
  rw [Walk.tour_const] at h
  exact h _ _ ⟨rfl, rfl, rfl⟩

theorem Plan.run_walk (plan : Plan ι) (steps : Nat) (id : Handle) (context : Option String)
    (w : Walk ι) :
    ((plan.walk steps id context).run w).result =
      ((Walk.visit plan steps context id).run w).result ∧
      ((plan.walk steps id context).run w).state =
      ((Walk.visit plan steps context id).run w).state := by
  unfold Plan.walk
  rcases h : (Walk.visit plan steps context id).run w with ⟨r, w', es⟩
  cases r with
  | error e =>
    rw [run_bind_error h]
    exact ⟨rfl, rfl⟩
  | ok a =>
    rw [run_bind_ok h]
    exact ⟨rfl, rfl⟩

/-- The recorded walk and the walk have the same result, the same tree and client, and the same
progress. -/
theorem Plan.over_recorded (plan : Plan ι) (steps : Nat) (id : Handle) (context : Option String)
    (w : Workspace ι) :
    let o := (plan.walk steps id context).run (Walk.start w)
    (plan.recording steps id context w).result = o.result ∧
      Walk.Over Workspace.Records Eq (plan.recording steps id context w).state o.state := by
  intro o
  obtain ⟨hr, hs, -⟩ := plan.agree_recorded steps id context w
  obtain ⟨hresult, hstate⟩ := plan.run_walk steps id context (Walk.start w)
  exact ⟨hr.trans hresult.symm, hstate ▸ hs⟩

/-! ## What is to be shown of a dispatch -/

section Dispatch

variable {plan : Plan ι} {phase : Phase} {id : Handle} {I : Workspace ι → Prop}
  {E : Fault → Workspace ι → Prop} {support : Option Targets}

theorem PluginModule.yields_run {module : PluginModule ι}
    (h : ∀ p ∈ module, ∀ kind reaction node handler, p.reaction kind phase = some reaction →
      reaction.resolve node = some handler → ∀ s, I s → (∃ n, s.tree.get? id = some n) →
        (handler id).Yields s (fun _ s' => I s') E) {s : Workspace ι} (hs : I s) :
    (PluginModule.run support phase id module).Yields s (fun _ s' => I s') E := by
  induction module generalizing s with
  | nil => exact hs
  | cons p ps ih =>
    have hps := fun s hs => ih (fun q hq => h q (List.mem_cons_of_mem _ hq)) (s := s) hs
    rw [PluginModule.run, yields_bind, yields_get]
    cases hnode : s.tree.get? id with
    | none => exact hs
    | some node =>
      dsimp only
      rw [yields_bind]
      refine Yields.mono (E := E) (Q := fun _ s' => I s') ?_ (fun _ s' hs' => hps s' hs')
        fun _ _ he => he
      unfold Plugin.run
      split
      · exact hs
      · next reaction hreaction =>
        split
        · split
          · exact hs
          · next handler hresolve =>
            rw [yields_bind, yields_report]
            exact h p (List.mem_cons_self ..) _ reaction node handler hreaction hresolve s hs
              ⟨node, hnode⟩
        · exact hs

/-- Handlers are called on nodes that are there, one after the other, until one fails.  What each
call keeps is kept by all of them. -/
theorem yields_runModules {modules : List (PluginModule ι)}
    (h : ∀ module ∈ modules, ∀ p ∈ module, ∀ kind reaction node handler,
      p.reaction kind phase = some reaction → reaction.resolve node = some handler →
        ∀ s, I s → (∃ n, s.tree.get? id = some n) → (handler id).Yields s (fun _ s' => I s') E)
    {s : Workspace ι} (hs : I s) :
    (runModules support phase id modules).Yields s (fun _ s' => I s') E := by
  unfold runModules
  induction modules generalizing s with
  | nil => exact hs
  | cons module modules ih =>
    show (PluginModule.run support phase id module >>= fun _ =>
      modules.forM (PluginModule.run support phase id)).Yields s _ E
    rw [yields_bind]
    refine (PluginModule.yields_run (h module (List.mem_cons_self ..)) hs).mono ?_ fun _ _ he => he
    exact fun _ s' hs' => ih (fun m hm => h m (List.mem_cons_of_mem _ hm)) hs'

end Dispatch

section Recorded

variable {plan : Plan ι} {phase : Phase} {id : Handle} {around : List Handle}
  {I : Workspace (Recorded ι) → Prop} {E : Fault → Workspace (Recorded ι) → Prop}

theorem Handler.yields_recorded {plugin : String} {handler : Handler ι} {s : Workspace (Recorded ι)}
    {Q : Unit → Workspace (Recorded ι) → Prop} :
    (handler.recorded plugin phase around id).Yields s Q E ↔
      (handler id).Yields s.plain
        (fun a u => Q a ⟨u.tree, u.client,
          s.client.calls ++ [⟨plugin, phase, id, around, s.tree, .ok a, u.tree⟩]⟩)
        (fun e u => E e ⟨u.tree, u.client,
          s.client.calls ++ [⟨plugin, phase, id, around, s.tree, .error e, u.tree⟩]⟩) := by
  unfold Yields Handler.recorded Action.run
  dsimp only
  rcases handler id s.plain with ⟨r, u, es⟩
  cases r <;> exact Iff.rfl

/-- What is to be shown of a recorded dispatch is to be shown of each recorded call. -/
theorem yields_runModules_recorded
    (h : plan.All fun handler => ∀ plugin s, I s → (∃ n, s.tree.get? id = some n) →
      (handler.recorded plugin phase around id).Yields s (fun _ s' => I s') E)
    {s : Workspace (Recorded ι)} (hs : I s) :
    (runModules (plan.recorded around).support phase id (plan.recorded around).modules).Yields s
      (fun _ s' => I s') E := by
  refine yields_runModules ?_ hs
  intro module hmodule p hp kind reaction node handler hreaction hresolve
  obtain ⟨module', hmodule', rfl⟩ := List.mem_map.mp hmodule
  obtain ⟨p', hp', rfl⟩ := List.mem_map.mp hp
  obtain ⟨reaction', hreaction', rfl⟩ := Option.map_eq_some_iff.mp hreaction
  rw [Reaction.resolve_map] at hresolve
  obtain ⟨handler', hresolve', rfl⟩ := Option.map_eq_some_iff.mp hresolve
  exact h module' hmodule' p' hp' handler' ⟨kind, phase, reaction', node, hreaction', hresolve'⟩ _

end Recorded

/-! ## Starts and dispatches -/

section Starts

variable {plan : Plan ι} {phase : Phase} {id : Handle} {around : List Handle}

/-- One dispatch of the later phase on the node of a start, and the calls that it makes. -/
def Plan.Dispatches (plan : Plan ι) (start : Start) (calls : List Call) : Prop :=
  ∃ around s,
    let o := (runModules plan.support .after start.id (plan.recorded around).modules).run s
    o.state.client.calls = s.client.calls ++ calls

/-- A dispatch adds its calls to the record, all of them in its phase and on its node. -/
theorem exists_calls_runModules (plan : Plan ι) (around : List Handle) (phase : Phase) (id : Handle)
    (s : Workspace (Recorded ι)) :
    ∃ calls,
      ((runModules plan.support phase id (plan.recorded around).modules).run s).state.client.calls =
        s.client.calls ++ calls ∧ ∀ c ∈ calls, c.phase = phase ∧ c.id = id := by
  let Adds (s' : Workspace (Recorded ι)) : Prop :=
    ∃ calls, s'.client.calls = s.client.calls ++ calls ∧ ∀ c ∈ calls, c.phase = phase ∧ c.id = id
  refine (yields_state_iff _ _ Adds).mp (yields_runModules_recorded ?_ ⟨[], by simp, by simp⟩)
  intro module _ p _ handler _ plugin s' hs' _
  obtain ⟨calls, hcalls, hall⟩ := hs'
  have hadd (call : Call) (hcall : call.phase = phase ∧ call.id = id) (u : Workspace ι) :
      Adds ⟨u.tree, u.client, s'.client.calls ++ [call]⟩ := by
    refine ⟨calls ++ [call], by rw [hcalls, List.append_assoc], fun c hc => ?_⟩
    rcases List.mem_append.mp hc with hc | hc
    · exact hall c hc
    · rwa [List.mem_singleton.mp hc]
  rw [Handler.yields_recorded]
  exact (yields_state_iff _ _ fun _ => True).mpr trivial |>.mono (fun _ u _ => hadd _ ⟨rfl, rfl⟩ u)
    fun _ u _ => hadd _ ⟨rfl, rfl⟩ u

/-- Whether a call is one of the later phase. -/
def Call.isLater (c : Call) : Bool :=
  c.phase = .after

/-- The calls of the later phase so far are those of one dispatch for each start, in order. -/
def Walk.Accounted (plan : Plan ι) (w : Walk (Recorded ι)) : Prop :=
  ∃ groups, List.Forall₂ plan.Dispatches w.started.reverse groups ∧
    w.workspace.client.calls.filter Call.isLater = groups.flatten

namespace Walk

/-- Calls of the earlier phase are not accounted for. -/
theorem Accounted.of_filter_eq {w w' : Walk (Recorded ι)} (h : w.Accounted plan)
    (hstarted : w'.started = w.started)
    (hcalls : w'.workspace.client.calls.filter Call.isLater =
      w.workspace.client.calls.filter Call.isLater) : w'.Accounted plan := by
  obtain ⟨groups, hgroups, hflatten⟩ := h
  exact ⟨groups, hstarted ▸ hgroups, hcalls.trans hflatten⟩

/-- What happens before the children of a node are visited is accounted for. -/
theorem yields_arrive_accounted {w : Walk (Recorded ι)} (hw : w.Accounted plan) (id : Handle) :
    (arrive (plan.recorded around) id).Yields w.workspace
      (fun _ s => Accounted plan { w with workspace := s })
      (fun _ s => Accounted plan { w with workspace := s }) := by
  refine yields_arrive_iff.mpr ⟨fun n _ => ?_, fun _ => hw⟩
  split
  · have hbefore : Accounted plan { w with workspace := ((runModules plan.support .before id
        (plan.recorded around).modules).run w.workspace).state } := by
      obtain ⟨calls, hcalls, hall⟩ := exists_calls_runModules plan around .before id w.workspace
      refine hw.of_filter_eq rfl ?_
      have hnone : calls.filter Call.isLater = [] := by
        refine List.filter_eq_nil_iff.mpr fun c hc => ?_
        simp [Call.isLater, (hall c hc).1]
      dsimp only
      rw [hcalls, List.filter_append, hnone, List.append_nil]
    have hyields :=
      (yields_state_iff _ _ fun s => Accounted plan { w with workspace := s }).mpr hbefore
    exact hyields.mono (fun _ s hs => ⟨fun _ _ => hs, fun _ => hs⟩) fun _ _ hs => hs
  · exact hw

/-- A dispatch of the later phase leaves one start, and its calls are accounted for by that
start. -/
theorem keeps_finalize_accounted (plan : Plan ι) (around : List Handle) (id : Handle) :
    (finalize (plan.recorded around) id).Keeps (Accounted plan) := by
  rintro w ⟨groups, hgroups, hflatten⟩
  obtain ⟨calls, hcalls, hall⟩ := exists_calls_runModules plan around .after id w.workspace
  have hlater : calls.filter Call.isLater = calls :=
    List.filter_eq_self.mpr fun c hc => by simp [Call.isLater, (hall c hc).1]
  let start : Start := ⟨id, w.openChildren id⟩
  have hafter (finalized : Std.HashSet Handle) : Accounted plan ⟨((runModules plan.support .after id
      (plan.recorded around).modules).run w.workspace).state, start :: w.started, finalized⟩ := by
    refine ⟨groups ++ [calls], ?_, ?_⟩
    · rw [List.reverse_cons]
      exact List.rel_append hgroups (.cons ⟨around, w.workspace, hcalls⟩ .nil)
    · dsimp only
      rw [hcalls, List.filter_append, hflatten, hlater, List.flatten_append, List.flatten_singleton]
  rw [yields_finalize_iff]
  have hyields :=
    (yields_state_iff (runModules plan.support .after id (plan.recorded around).modules)
    w.workspace fun s => ∀ finalized, Accounted plan ⟨s, start :: w.started, finalized⟩).mpr hafter
  exact hyields.mono (fun _ s hs => hs _) fun _ s hs => hs _

theorem keeps_tour_accounted (plan : Plan ι) (around : List Handle) (n : Nat)
    (context : Option String) (id : Handle) :
    (tour plan.recorded around n context id).Keeps (Accounted plan) := by
  induction n generalizing around context id with
  | zero => exact Keeps.fail _
  | succ n ih =>
    intro w hw
    rw [yields_tour_succ]
    refine (yields_arrive_accounted hw id).mono (fun own s hs => ?_) fun _ _ hs => hs
    split
    · -- a removal calls no handler
      have hremove : Accounted plan
          { w with workspace := { s with tree := ((Edit.remove id).run s.tree).state } } :=
        hs.of_filter_eq rfl rfl
      exact (yields_state_iff _ _ fun t =>
        Accounted plan { w with workspace := { s with tree := t } }).mpr hremove
    · have hchildren := keeps_children (fun child => ih (id :: around) (context <|> own) child) id n
      exact (hchildren _ hs).mono (fun _ w' hw' => keeps_finalize_accounted plan around id w' hw')
        fun _ _ hw' => hw'

end Walk

/-- The calls of the later phase in a walk are those of one dispatch for each start, in order: each
dispatch leaves exactly one start. -/
theorem Plan.exists_dispatches (plan : Plan ι) (steps : Nat) (id : Handle) (context : Option String)
    (w : Workspace ι) :
    ∃ groups, List.Forall₂ plan.Dispatches
        ((plan.walk steps id context).run (Walk.start w)).state.started.reverse groups ∧
      (plan.calls steps id context w).filter Call.isLater = groups.flatten := by
  obtain ⟨-, hover⟩ := plan.over_recorded steps id context w
  rw [← hover.started]
  exact (Walk.keeps_tour_accounted plan [] steps context id).state ⟨[], .nil, rfl⟩

end Starts

end StyleTree
