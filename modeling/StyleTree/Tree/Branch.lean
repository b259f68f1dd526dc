import StyleTree.Tree.Basic

/-!
# Branches

A tree stores its shape in links between slots.  A branch is the same shape as an inductive value:
a node, with its handle and the branches of its children.  Unfolding a tree into a branch is the one
place where links are followed downwards, and the number of nodes bounds how far.  Printing,
searching, outlining, removing and collecting garbage are recursions on branches.
-/

namespace StyleTree

variable [Data]

/-- A node with everything below it. -/
inductive Branch where
  | mk (id : Handle) (node : Node) (children : List Branch)

namespace Branch

instance : Inhabited Branch := ⟨⟨default, default, []⟩⟩

/-- The handle of the topmost node. -/
def id : Branch → Handle
  | ⟨id, _, _⟩ => id

/-- The topmost node. -/
def node : Branch → Node
  | ⟨_, node, _⟩ => node

/-- The branches below the topmost node. -/
def children : Branch → List Branch
  | ⟨_, _, children⟩ => children

mutual

/-- The nodes of a branch in document order, each with its handle and its depth. -/
def rows (depth : Nat) : Branch → List (Nat × Handle × Node)
  | ⟨id, node, children⟩ => (depth, id, node) :: rowsAll (depth + 1) children

/-- The rows of several branches at one depth. -/
def rowsAll (depth : Nat) : List Branch → List (Nat × Handle × Node)
  | [] => []
  | b :: bs => rows depth b ++ rowsAll depth bs

end

/-- The nodes of a branch in document order, each with its handle. -/
def entries (b : Branch) : List (Handle × Node) :=
  (b.rows 0).map Prod.snd

/-- The handles of a branch in document order. -/
def handles (b : Branch) : List Handle :=
  b.entries.map Prod.fst

end Branch

namespace Tree

/-- The branch at a handle, unfolded to a depth. -/
def branchAt (t : Tree) : Nat → Handle → Option Branch
  | 0, _ => none
  | n + 1, id =>
    (t.get? id).map fun node => ⟨id, node, node.children.filterMap fun c => t.branchAt n c⟩

/-- The branch at a handle. -/
def branch? (t : Tree) (id : Handle) : Option Branch :=
  t.branchAt t.bound id

/-- The nodes at and below a handle in document order, each with its handle. -/
def below (t : Tree) (id : Handle) : List (Handle × Node) :=
  (t.branch? id).elim [] Branch.entries

/-! ## Removal and compaction -/

/-- The tree with every link of some nodes cut: they have no parent and no children. -/
def isolate (t : Tree) (ids : List Handle) : Tree :=
  ids.foldl (fun t id => t.update id fun n => { n with parent := none, children := [] }) t

/-- The tree with a node taken out and everything at and below it isolated. -/
def prune (t : Tree) (id : Handle) : Tree :=
  (t.unlink id).isolate ((t.below id).map Prod.fst)

/-- The handles that are reached from the root. -/
def reached (t : Tree) : List Handle :=
  (t.below t.root).map Prod.fst

/-- The tree without the nodes that are not reached from the root. -/
def compact (t : Tree) : Tree :=
  let kept := t.reached
  { t with arena := t.arena.retain fun id => kept.contains id }

end Tree

end StyleTree
