import StyleTree.Edit
import StyleTree.Phase
import StyleTree.Support.Basic
import StyleTree.Text.Quoted

/-!
# Plugins

A plugin reacts to nodes by their kind and by the phase of the walk.  For each kind and phase it has
at most one reaction: either one handler for every node of the kind, or a table of handlers by name.

Handlers are actions on a workspace: the tree, and beside it a state of the client's own that the
program passes along and never looks into.  A handler sees neither the log nor the progress of the
walk.

Registering a handler for every node replaces the reaction.  Registering one under a name joins the
table if the reaction is one, replacing an earlier handler of that name, and otherwise replaces the
reaction by a new table.
-/

namespace StyleTree

variable [Data]

/-- A tree and the state of a client. -/
structure Workspace (ι : Type) where
  tree : Tree
  client : ι

/-- An edit of the tree of a workspace. -/
def Edit.onWorkspace {ι α : Type} (x : Edit α) : Action (Workspace ι) α :=
  x.zoom Workspace.tree fun w t => { w with tree := t }

/-- What a plugin does to a node. -/
abbrev Handler (ι : Type) : Type := Handle → Action (Workspace ι) Unit

/-- The handlers for one kind and phase. -/
inductive Reaction (ι : Type) where
  /-- One handler for every node. -/
  | direct (handler : Handler ι)
  /-- Handlers by name. -/
  | byName (table : Std.TreeMap String (Handler ι))

namespace Reaction

variable {ι : Type}

/-- The handler for a node: the one for every node, or the one in the table under the name of the
node, or else under its second name.  A node without a name finds nothing in a table. -/
def resolve (reaction : Reaction ι) (node : Node) : Option (Handler ι) :=
  match reaction with
  | direct handler => some handler
  | byName table =>
    node.name.bind fun name => table[name]? <|> node.family.bind fun family => table[family]?

end Reaction

/-- Handlers under one gate. -/
structure Plugin (ι : Type) where
  name : String
  /-- Since when browsers do without the plugin; a plugin without this always runs. -/
  native : Option NativeMap
  reaction : Kind → Phase → Option (Reaction ι)

/-- Plugins that are applied together. -/
abbrev PluginModule (ι : Type) : Type := List (Plugin ι)

namespace Plugin

variable {ι : Type}

/-- A plugin without handlers. -/
def new (name : String) (native : Option NativeMap) : Plugin ι :=
  ⟨name, native, fun _ _ => none⟩

instance : Inhabited (Plugin ι) := ⟨new "" none⟩

/-- The plugin with a reaction replaced. -/
def setReaction (p : Plugin ι) (kind : Kind) (phase : Phase) (reaction : Reaction ι) : Plugin ι :=
  { p with reaction := fun k f => if k = kind ∧ f = phase then some reaction else p.reaction k f }

/-- The table of a reaction, empty if the reaction is none. -/
def table (p : Plugin ι) (kind : Kind) (phase : Phase) : Std.TreeMap String (Handler ι) :=
  match p.reaction kind phase with
  | some (.byName table) => table
  | _ => {}

/-- The plugin with a handler for every node of a kind, or for those under a name. -/
def register (p : Plugin ι) (kind : Kind) (phase : Phase) (name : Option String)
    (handler : Handler ι) : Plugin ι :=
  match name with
  | none => p.setReaction kind phase (.direct handler)
  | some name => p.setReaction kind phase (.byName ((p.table kind phase).insert name handler))

@[simp] theorem reaction_setReaction_self (p : Plugin ι) (kind : Kind) (phase : Phase)
    (reaction : Reaction ι) :
    (p.setReaction kind phase reaction).reaction kind phase = some reaction := by
  simp [setReaction]

theorem reaction_setReaction_of_ne (p : Plugin ι) {kind k : Kind} {phase f : Phase}
    (reaction : Reaction ι) (h : ¬(k = kind ∧ f = phase)) :
    (p.setReaction kind phase reaction).reaction k f = p.reaction k f := by
  simp [setReaction, h]

/-- The reactions that there are, by kind and then by phase. -/
def reactions (p : Plugin ι) : List (Kind × Phase × Reaction ι) :=
  Kind.all.flatMap fun kind => Phase.all.filterMap fun phase =>
    (p.reaction kind phase).map fun reaction => (kind, phase, reaction)

end Plugin

/-- A reaction as it is shown: its names, but not its handlers. -/
def Reaction.shown {ι : Type} : Reaction ι → String
  | direct _ => "Direct(..)"
  | byName table => "ByName(" ++ Text.bracketed (table.keys.map Text.quoted) ++ ")"

end StyleTree
