import Std.Data.HashSet
import StyleTree.Dispatch

/-!
# Walks

A walk visits a node and everything below it.  Each node is finalized after everything below it: the
handlers for the later phase run on it, and it is marked.  On a document the handlers for the
earlier phase run first.

Handlers may insert, move and remove nodes while the walk goes on, so the walk trusts no position.
After each child it looks at the children again and takes the first that is not marked, until there
is none.

A walk also removes what belongs to the wrong vendor.  It carries a context: the vendor that it was
given, or else the first vendor met on the way down.  A node that carries another vendor than the
context is removed with everything below it, and neither visited further nor marked.

Handlers can insert without end, so a walk is given a bound on its steps: on how deep it goes and on
how often it takes another child of one node.  A walk that would need more fails as `unfinished`.

The marks are kept in a hash set.  All that a walk does with them is to add one and to ask whether
there is one, so any container of handles would do.
-/

namespace StyleTree

/-- A container for the nodes that are finalized. -/
class Marks (μ : Type) where
  /-- Without a node. -/
  none : μ
  /-- Whether a node is in the container. -/
  has : μ → Handle → Bool
  /-- With one node more. -/
  add : μ → Handle → μ

instance : Marks (Std.HashSet Handle) where
  none := {}
  has := Std.HashSet.contains
  add := Std.HashSet.insert

@[simp] theorem Marks.none_hashSet : (Marks.none : Std.HashSet Handle) = {} := rfl

@[simp] theorem Marks.has_hashSet (s : Std.HashSet Handle) (id : Handle) :
    Marks.has s id = s.contains id := rfl

@[simp] theorem Marks.add_hashSet (s : Std.HashSet Handle) (id : Handle) :
    Marks.add s id = s.insert id := rfl

variable [Data] {ι : Type}

/-- The modules to apply, and the browsers to apply them for. -/
structure Plan (ι : Type) where
  modules : List (PluginModule ι)
  support : Option Targets

/-- The start of the later phase on a node. -/
structure Start where
  id : Handle
  /-- The children of the node that were not finalized at that moment. -/
  pending : List Handle
deriving DecidableEq, Repr, Inhabited

/-- How far a walk has come. -/
structure Walk (ι : Type) (μ : Type := Std.HashSet Handle) where
  workspace : Workspace ι
  /-- The starts of the later phase, the last first. -/
  started : List Start
  /-- The nodes that are finalized. -/
  finalized : μ

namespace Walk

variable {μ : Type} [Marks μ]

/-- An action on the workspace of a walk. -/
def onWorkspace {α : Type} (x : Action (Workspace ι) α) : Action (Walk ι μ) α :=
  x.zoom Walk.workspace fun w s => { w with workspace := s }

/-- The first child of a node that is not finalized. -/
def firstOpenChild (w : Walk ι μ) (id : Handle) : Option Handle :=
  ((w.workspace.tree.get? id).map Node.children).bind fun children =>
    children.find? fun child => !Marks.has w.finalized child

/-- The children of a node that are not finalized. -/
def openChildren (w : Walk ι μ) (id : Handle) : List Handle :=
  (((w.workspace.tree.get? id).map Node.children).getD []).filter fun child =>
    !Marks.has w.finalized child

/-- The children of a node visited, each time the first that is not finalized, at most so often. -/
def children (visit : Handle → Action (Walk ι μ) Unit) (id : Handle) : Nat → Action (Walk ι μ) Unit
  | 0 => Action.fail .unfinished
  | n + 1 => do
    match (← Action.get).firstOpenChild id with
    | none => pure ()
    | some child =>
      visit child
      children visit id n

/-- A node finalized: the handlers for the later phase, and the mark. -/
def finalize (plan : Plan ι) (id : Handle) : Action (Walk ι μ) Unit := do
  Action.modify fun w => { w with started := ⟨id, w.openChildren id⟩ :: w.started }
  onWorkspace (runModules plan.support .after id plan.modules)
  Action.modify fun w => { w with finalized := Marks.add w.finalized id }
  Action.report (.finalizedNode id)

/-- Whether a node that carries `own` has to go where the context is `context`. -/
def isForeign (context own : Option String) : Bool :=
  match context, own with
  | some c, some o => o ≠ c
  | _, _ => false

/-- The vendor of a node that a walk comes to; on a document the handlers for the earlier phase run
first. -/
def arrive (plan : Plan ι) (id : Handle) : Action (Workspace ι) (Option String) := do
  if (← (Edit.node id).onWorkspace).kind = .root then
    runModules plan.support .before id plan.modules
  return (← (Edit.node id).onWorkspace).vendor

/-- A node and everything below it visited, with a bound on the steps. -/
def visit (plan : Plan ι) : Nat → Option String → Handle → Action (Walk ι μ) Unit
  | 0, _, _ => Action.fail .unfinished
  | n + 1, context, id => do
    let own ← onWorkspace (arrive plan id)
    if isForeign context own then
      Action.report (.pruningNode id (own.getD "") (context.getD ""))
      let _ ← onWorkspace (Edit.remove id).onWorkspace
    else
      children (fun child => visit plan n (context <|> own) child) id n
      finalize plan id

/-- A walk that has not begun. -/
def start (w : Workspace ι) : Walk ι := ⟨w, [], Marks.none⟩

end Walk

namespace Plan

/-- The walk over a node and everything below it, from a context; the state it ends in, whether it
succeeds or fails, is the state of the walk. -/
def walk (plan : Plan ι) (steps : Nat) (id : Handle) (context : Option String) :
    Action (Walk ι) Unit := do
  Walk.visit plan steps context id
  Action.report (.traversalComplete (← Action.get).finalized.size)

/-- The plan applied to a node and everything below it. -/
def applyAt (plan : Plan ι) (steps : Nat) (id : Handle) (context : Option String) :
    Action (Workspace ι) Unit := fun w =>
  let o := plan.walk steps id context (Walk.start w)
  ⟨o.result, o.state.workspace, o.events⟩

/-- The plan applied to a whole tree. -/
def apply (plan : Plan ι) (steps : Nat) : Action (Workspace ι) Unit := do
  plan.applyAt steps (← Action.get).tree.root none

end Plan

end StyleTree
