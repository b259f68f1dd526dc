import Mathlib.Data.List.DropRight
import StyleTree.Proofs.Gate
import StyleTree.Proofs.Walk.Merge

/-!
# Which handler a plugin runs

A plugin is built by registering handlers one after the other, and what a registration does depends
on what is there: it replaces the reaction to its kind and phase, or it joins a table.  Which
handler a node gets in the end can nevertheless be read off the list of registrations.

* `chosen`: the handler for a node, by the registrations alone.  Only those for its kind and phase
  count.  If the last of them has no name, it is chosen.  Otherwise those are left that come after
  the last one without a name, and of these the latest under the name of the node is chosen, or else
  the latest under its second name.
* `Leaves`: what registrations for a kind and phase leave behind, kept by each further registration
  (`Leaves.register`).
* `run_registered`: on a node, a plugin with an open gate runs the handler that is chosen, once and
  no other, or does nothing if none is.
-/

namespace StyleTree

open StyleTree.Action

section General

variable [Data] {ι : Type}

/-- A handler registered for a kind and a phase, for every node or for those under a name. -/
structure Registration (ι : Type) where
  kind : Kind
  phase : Phase
  name : Option String
  handler : Handler ι

/-- The plugin with further handlers, registered one after the other. -/
def Plugin.registerAll (p : Plugin ι) (regs : List (Registration ι)) : Plugin ι :=
  regs.foldl (fun p r => p.register r.kind r.phase r.name r.handler) p

namespace Registration

/-- The registrations for a kind and a phase. -/
def concerning (kind : Kind) (phase : Phase) (regs : List (Registration ι)) :
    List (Registration ι) :=
  regs.filter fun r => r.kind = kind ∧ r.phase = phase

/-- The registrations after the last one without a name. -/
def named (regs : List (Registration ι)) : List (Registration ι) :=
  regs.rtakeWhile fun r => r.name.isSome

/-- The handler that was last registered under a name. -/
def latest (regs : List (Registration ι)) (name : String) : Option (Handler ι) :=
  (regs.reverse.find? fun r => r.name = some name).map handler

/-- The handler that registrations choose for a node in a phase. -/
def chosen (regs : List (Registration ι)) (phase : Phase) (node : Node) : Option (Handler ι) :=
  let own := concerning node.kind phase regs
  match own.getLast? with
  | none => none
  | some last =>
    if last.name = none then some last.handler
    else node.name.bind fun name =>
      latest (named own) name <|> node.family.bind fun family => latest (named own) family

/-! ## One more registration -/

theorem concerning_concat (kind : Kind) (phase : Phase) (regs : List (Registration ι))
    (r : Registration ι) : concerning kind phase (regs ++ [r]) =
      if r.kind = kind ∧ r.phase = phase then concerning kind phase regs ++ [r]
      else concerning kind phase regs := by
  unfold concerning
  rw [List.filter_append, List.filter_singleton]
  by_cases h : r.kind = kind ∧ r.phase = phase
  · simp [h]
  · simp [h]

theorem latest_concat (regs : List (Registration ι)) (r : Registration ι) (name : String) :
    latest (regs ++ [r]) name =
      if r.name = some name then some r.handler else latest regs name := by
  unfold latest
  rw [List.reverse_append, List.reverse_singleton, List.singleton_append, List.find?_cons]
  by_cases h : r.name = some name
  · simp [h]
  · simp [h]

end Registration

namespace Plugin

open Registration

@[simp] theorem name_register (p : Plugin ι) (kind : Kind) (phase : Phase) (name : Option String)
    (handler : Handler ι) : (p.register kind phase name handler).name = p.name := by
  cases name <;> rfl

@[simp] theorem native_register (p : Plugin ι) (kind : Kind) (phase : Phase) (name : Option String)
    (handler : Handler ι) : (p.register kind phase name handler).native = p.native := by
  cases name <;> rfl

theorem registerAll_concat (p : Plugin ι) (regs : List (Registration ι)) (r : Registration ι) :
    p.registerAll (regs ++ [r]) =
      (p.registerAll regs).register r.kind r.phase r.name r.handler := by
  rw [registerAll, List.foldl_append]
  rfl

/-- Registering a handler leaves the name of a plugin and its gate as they are. -/
theorem gate_registerAll (p : Plugin ι) (regs : List (Registration ι)) :
    (p.registerAll regs).name = p.name ∧ (p.registerAll regs).native = p.native := by
  induction regs using List.reverseRecOn with
  | nil => exact ⟨rfl, rfl⟩
  | append_singleton regs r ih => simpa [registerAll_concat] using ih

/-- A registration for another kind or phase is not noticed. -/
theorem reaction_register_of_ne (p : Plugin ι) {kind k : Kind} {phase f : Phase}
    (name : Option String) (handler : Handler ι) (h : ¬(kind = k ∧ phase = f)) :
    (p.register kind phase name handler).reaction k f = p.reaction k f := by
  have hne : ¬(k = kind ∧ f = phase) := fun ⟨hk, hf⟩ => h ⟨hk.symm, hf.symm⟩
  cases name with
  | none => exact p.reaction_setReaction_of_ne _ hne
  | some name => exact p.reaction_setReaction_of_ne _ hne

/-! ## What registrations leave behind -/

/-- The reaction that registrations, all of them for its kind and phase, leave behind. -/
inductive Leaves : List (Registration ι) → Option (Reaction ι) → Prop
  | nothing : Leaves [] none
  | direct (regs : List (Registration ι)) {r : Registration ι} (hr : r.name = none) :
      Leaves (regs ++ [r]) (some (.direct r.handler))
  /-- A table holds what was registered since the last handler for every node. -/
  | byName {regs : List (Registration ι)} {r : Registration ι}
      {table : Std.TreeMap String (Handler ι)}
      (hr : r.name ≠ none) (htable : ∀ name, table[name]? = latest (named (regs ++ [r])) name) :
      Leaves (regs ++ [r]) (some (.byName table))

variable {p : Plugin ι} {kind : Kind} {phase : Phase} {regs : List (Registration ι)}

/-- The table that a further registration under a name joins. -/
theorem Leaves.getElem?_table (h : Leaves regs (p.reaction kind phase)) (name : String) :
    (p.table kind phase)[name]? = latest (named regs) name := by
  unfold table
  generalize p.reaction kind phase = reaction at h
  cases h with
  | nothing => rfl
  | @direct regs r hr =>
    have hnone : named (regs ++ [r]) = [] := List.rtakeWhile_concat_neg _ _ _ (by simp [hr])
    rw [hnone]
    rfl
  | byName hr htable => exact htable name

/-- One more registration. -/
theorem Leaves.register (h : Leaves regs (p.reaction kind phase)) (r : Registration ι) :
    Leaves (regs ++ [r]) ((p.register kind phase r.name r.handler).reaction kind phase) := by
  cases hname : r.name with
  | none =>
    rw [Plugin.register, reaction_setReaction_self]
    exact .direct regs hname
  | some name =>
    rw [Plugin.register, reaction_setReaction_self]
    have hnamed : named (regs ++ [r]) = named regs ++ [r] :=
      List.rtakeWhile_concat_pos _ _ _ (by simp [hname])
    refine .byName (by simp [hname]) fun name' => ?_
    rw [getElem?_insert, h.getElem?_table, hnamed, latest_concat, hname]
    simp only [Option.some.injEq]

theorem leaves_registerAll (name : String) (native : Option NativeMap)
    (regs : List (Registration ι)) (kind : Kind) (phase : Phase) :
    Leaves (concerning kind phase regs)
      (((new name native).registerAll regs).reaction kind phase) := by
  induction regs using List.reverseRecOn with
  | nil => exact .nothing
  | append_singleton regs r ih =>
    rw [registerAll_concat, concerning_concat]
    split
    · next h =>
      obtain ⟨rfl, rfl⟩ := h
      exact ih.register r
    · next h =>
      rw [reaction_register_of_ne _ _ _ h]
      exact ih

/-- The handler that is found in the reaction is the one that is chosen. -/
theorem Leaves.resolve_eq_chosen {node : Node} {reaction : Option (Reaction ι)}
    (h : Leaves (concerning node.kind phase regs) reaction) :
    (reaction.bind fun reaction => reaction.resolve node) = chosen regs phase node := by
  unfold chosen
  dsimp only
  generalize concerning node.kind phase regs = own at h
  cases h with
  | nothing => rfl
  | direct regs hr =>
    rw [List.getLast?_concat]
    dsimp only
    rw [if_pos hr]
    rfl
  | byName hr htable =>
    rw [List.getLast?_concat]
    dsimp only
    rw [if_neg hr]
    simp only [Option.bind_some, Reaction.resolve, htable]

end Plugin

/-- A plugin built by any registrations, with an open gate, runs on a node in a phase the handler
that the registrations choose for the node: the outcome is that of the handler, after one report.
If none is chosen, nothing happens. -/
theorem run_registered (name : String) (native : Option NativeMap) (regs : List (Registration ι))
    {support : Option Targets} (hgate : gateOpen support native = true)
    {w : Workspace ι} {id : Handle} {node : Node} (hnode : w.tree.get? id = some node)
    (phase : Phase) :
    (PluginModule.run support phase id [(Plugin.new name native).registerAll regs]).run w =
      match Registration.chosen regs phase node with
      | none => ⟨.ok (), w, []⟩
      | some handler =>
        let o := (handler id).run w
        ⟨o.result, o.state, .runningHandler name id node.kind phase :: o.events⟩ := by
  obtain ⟨hname, hnative⟩ : ((Plugin.new name native).registerAll regs).name = name ∧
      ((Plugin.new name native).registerAll regs).native = native := Plugin.gate_registerAll _ regs
  have hresolve := (Plugin.leaves_registerAll name native regs node.kind phase).resolve_eq_chosen
  have hlast : PluginModule.run support phase id ([] : PluginModule ι) = pure () := rfl
  rw [PluginModule.run_of_live hnode, hlast, bind_pure_unit, ← hresolve, Plugin.run, hnative, hname]
  cases ((Plugin.new name native).registerAll regs).reaction node.kind phase with
  | none => rfl
  | some reaction =>
    dsimp only
    rw [if_pos hgate, Option.bind_some]
    cases reaction.resolve node with
    | none => rfl
    | some handler =>
      dsimp only
      rw [run_bind_ok (run_report _ w)]
      rfl

/-- A handler that notes its number. -/
def noting (n : Nat) : Handler (List Nat) := fun _ =>
  Action.modify fun w => { w with client := w.client ++ [n] }

end General

/-- Registrations of which some are replaced, and some are for another kind or phase. -/
def shadowing : List (Registration (List Nat)) :=
  [⟨.declaration, .after, some "-webkit-transition", noting 1⟩,
    ⟨.declaration, .after, none, noting 2⟩,
    ⟨.declaration, .after, some "transition", noting 3⟩, ⟨.declaration, .before, none, noting 4⟩,
    ⟨.declaration, .after, some "color", noting 5⟩,
    ⟨.declaration, .after, some "transition", noting 6⟩,
    ⟨.rule, .after, none, noting 7⟩]

/-- A tree with a declaration that has a second name. -/
def twoNames : Workspace (List Nat) :=
  ((do
    let id ← Edit.create .declaration
    Edit.setName id "-webkit-transition"
    Edit.setFamily id "transition" : Edit Unit).onWorkspace.run ⟨Tree.empty, []⟩).state

/-- What was registered under the first name is gone, so the latest under the second name runs. -/
theorem run_registered_shadowing :
    let native := NativeMap.empty.never "explorer"
    let support := Targets.empty.target "chrome" 30
    gateOpen (some support) (some native) = true ∧ twoNames.tree.contains ⟨2, 1⟩ = true ∧
      (PluginModule.run (some support) .after ⟨2, 1⟩
        [(Plugin.new "p" (some native)).registerAll shadowing]).run twoNames =
          ⟨.ok (), { twoNames with client := [6] },
            [.runningHandler "p" ⟨2, 1⟩ .declaration .after]⟩ := by
  intro native support
  have hgate : gateOpen (some support) (some native) = true := by decide +kernel
  have hnode : twoNames.tree.get? ⟨2, 1⟩ = some { Node.fresh .declaration with
      name := some "-webkit-transition", vendor := some "webkit",
      family := some "transition" } := rfl
  exact ⟨hgate, rfl, run_registered "p" (some native) shadowing hgate hnode .after⟩

end StyleTree
