import StyleTree.Query
import StyleTree.Tree.Branch
import StyleTree.Tree.Lineage

/-!
# Searching

The questions that a query can be put to: one node, the children of a node, everything at and below
a node, and the node with everything above it.  A handle without a node answers nothing.
-/

namespace StyleTree.Tree

variable [Data]

/-- Whether the node at a handle answers a query. -/
def answers (t : Tree) (id : Handle) (q : Query) : Bool :=
  (t.get? id).any q.accepts

/-- The children of a node that answer a query, in order. -/
def childrenOf (t : Tree) (id : Handle) (q : Query) : List Handle :=
  (((t.get? id).map Node.children).getD []).filter fun child => t.answers child q

/-- Whether some child of a node answers a query. -/
def hasChild (t : Tree) (id : Handle) (q : Query) : Bool :=
  (((t.get? id).map Node.children).getD []).any fun child => t.answers child q

/-- The nodes at and below a handle that answer a query, in document order. -/
def search (t : Tree) (id : Handle) (q : Query) : List Handle :=
  ((t.below id).filter fun (_, node) => q.accepts node).map Prod.fst

/-- Whether some node at or below a handle answers a query. -/
def has (t : Tree) (id : Handle) (q : Query) : Bool :=
  (t.below id).any fun (_, node) => q.accepts node

/-- The nearest node at or above a handle that answers a query. -/
def ancestor? (t : Tree) (id : Handle) (q : Query) : Option Handle :=
  ((t.lineage id).find? fun (_, node) => q.accepts node).map Prod.fst

end StyleTree.Tree
