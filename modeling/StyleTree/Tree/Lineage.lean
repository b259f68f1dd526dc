import StyleTree.Tree.Basic

/-!
# Lineages

The lineage of a node is the node itself, its parent, the parent of that, and so on.  It is the
upward counterpart of a branch: whether a node lies below another, which data a node inherits and
which enclosing node answers a query are all questions about a lineage.
-/

namespace StyleTree.Tree

variable [Data]

/-- The lineage of a node, followed to a length.  It ends where a handle has no node. -/
def lineageFrom (t : Tree) : Nat → Handle → List (Handle × Node)
  | 0, _ => []
  | n + 1, id =>
    match t.get? id with
    | none => []
    | some node => (id, node) :: node.parent.elim [] (fun parent => t.lineageFrom n parent)

/-- The lineage of a node, the node itself first. -/
def lineage (t : Tree) (id : Handle) : List (Handle × Node) :=
  t.lineageFrom t.bound id

/-- Whether a node is another one or lies above it. -/
def isAbove (t : Tree) (upper lower : Handle) : Bool :=
  ((t.lineage lower).map Prod.fst).contains upper

/-! ## Scoped data -/

/-- The value under a key, as the nearest node of the lineage that holds the key has it.  A value
of another type than the one asked for hides those further up. -/
def datum? (t : Tree) (id : Handle) (key : String) (type : DatumType) : Option Datum :=
  ((t.lineage id).findSome? fun (_, node) => node.data[key]?).bind (Datum.as? type)

end StyleTree.Tree
