import StyleTree.Plugin

/-!
# Dispatch

Running a module of plugins on one node in one phase.  The plugins are asked in order, and every one
that has a handler for the node runs it, not only the first.  The node is looked up again before
each plugin: a handler may have renamed it, and may even have freed it, and then the rest of the
module is passed over.

The gate is asked only where a plugin has a reaction to the node's kind.
-/

namespace StyleTree

variable [Data] {ι : Type}

/-- The handler of a plugin run on a node, if it has one and its gate is open. -/
def Plugin.run (p : Plugin ι) (support : Option Targets) (phase : Phase) (id : Handle)
    (node : Node) : Action (Workspace ι) Unit :=
  match p.reaction node.kind phase with
  | none => pure ()
  | some reaction =>
    if gateOpen support p.native then
      match reaction.resolve node with
      | none => pure ()
      | some handler => do
        Action.report (.runningHandler p.name id node.kind phase)
        handler id
    else Action.report (.fixNotNeeded p.name node.kind)

/-- The plugins of a module run on a node, as long as there is the node. -/
def PluginModule.run (support : Option Targets) (phase : Phase) (id : Handle) :
    PluginModule ι → Action (Workspace ι) Unit
  | [] => pure ()
  | p :: ps => do
    match (← Action.get).tree.get? id with
    | none => pure ()
    | some node =>
      p.run support phase id node
      PluginModule.run support phase id ps

/-- Several modules run on a node, one after the other. -/
def runModules (support : Option Targets) (phase : Phase) (id : Handle)
    (modules : List (PluginModule ι)) : Action (Workspace ι) Unit :=
  modules.forM (PluginModule.run support phase id)

end StyleTree
