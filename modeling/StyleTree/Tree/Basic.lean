import StyleTree.Arena
import StyleTree.Tree.Node

/-!
# Trees

A tree is an arena of nodes with a root.  A node lists its children in order and remembers its
parent.  Nodes that are taken out of the tree stay in the arena as orphans, and their handles stay
good, until the tree is compacted.

The operations here change links and leave the checks to their callers: placing a child that is
already placed, or placing a node below itself, is prevented one level up.
-/

namespace StyleTree

variable [Data]

/-- Nodes in an arena, and the root among them. -/
structure Tree where
  arena : Arena Node
  root : Handle

namespace Tree

/-- A tree with an empty root. -/
def empty : Tree :=
  ⟨Arena.empty.insert (Node.fresh .root), (Arena.empty : Arena Node).next⟩

instance : Inhabited Tree := ⟨empty⟩

/-- The node at a handle. -/
def get? (t : Tree) (id : Handle) : Option Node :=
  t.arena.get? id

/-- Whether a handle has a node. -/
def contains (t : Tree) (id : Handle) : Bool :=
  t.arena.contains id

/-- The number of nodes, orphans included. -/
def size (t : Tree) : Nat :=
  t.arena.size

/-- A number that no chain of distinct nodes exceeds. -/
def bound (t : Tree) : Nat :=
  t.arena.slots.size

/-- The handle that the next node will get. -/
def next (t : Tree) : Handle :=
  t.arena.next

/-- The tree with one more node, at the handle `t.next`. -/
def insert (t : Tree) (node : Node) : Tree :=
  { t with arena := t.arena.insert node }

/-- The tree with a node changed; the same tree if there is no such node. -/
def update (t : Tree) (id : Handle) (f : Node → Node) : Tree :=
  { t with arena := t.arena.modify id f }

/-- A list with a handle placed at a position, or at the end if no position is given. -/
def place (child : Handle) (position : Option Nat) (children : List Handle) : List Handle :=
  match position with
  | some i => children.insertIdx i child
  | none => children ++ [child]

/-- The tree with an orphan placed among the children of a node. -/
def link (t : Tree) (parent child : Handle) (position : Option Nat) : Tree :=
  (t.update child fun n => { n with parent := some parent }).update parent fun n =>
    { n with children := place child position n.children }

/-- The tree with a node taken out of its parent's children, if it has a parent.  What is below the
node stays below it. -/
def unlink (t : Tree) (id : Handle) : Tree :=
  match (t.get? id).bind Node.parent with
  | some parent =>
    (t.update parent fun n => { n with children := n.children.filter (· ≠ id) }).update id fun n =>
      { n with parent := none }
  | none => t

/-- The position of a node among the children of its parent. -/
def index? (t : Tree) (id : Handle) : Option Nat := do
  let node ← t.get? id
  let parent ← t.get? (← node.parent)
  parent.children.idxOf? id

/-- The parent of a node and the position of the node among its children. -/
def site? (t : Tree) (id : Handle) : Option (Handle × Nat) := do
  let node ← t.get? id
  return (← node.parent, ← t.index? id)

/-! ## Descriptions made into nodes -/

mutual

/-- The tree with the nodes of a description, the topmost at the handle `t.next`: first the node,
then what is below it, in order. -/
def grow (t : Tree) (spec : Spec) : Tree :=
  match spec with
  | ⟨kind, name, value, block, children⟩ =>
    growAll (t.insert (Node.ofSpec ⟨kind, name, value, block, []⟩)) t.next children

/-- The tree with the nodes of several descriptions, each placed last below a node. -/
def growAll (t : Tree) (parent : Handle) (specs : List Spec) : Tree :=
  match specs with
  | [] => t
  | spec :: rest => growAll ((t.grow spec).link parent t.next none) parent rest

end

/-- The tree whose root holds the nodes of a list of descriptions. -/
def ofSpecs (specs : List Spec) : Tree :=
  empty.growAll empty.root specs

end Tree

end StyleTree
