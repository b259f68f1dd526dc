import StyleTree.Action
import StyleTree.Css.Parse
import StyleTree.File
import StyleTree.Tree.Lineage
import StyleTree.Tree.Print

/-!
# Edits

The operations that clients call on a tree.  An edit checks its arguments, changes the tree by the
operations of the tree itself, and reports what it did.  Where a text is given in place of a node,
the text is read first and its first item becomes a new orphan.

A node is copied by reading back its own text.  The copy shares nothing with the node; what the text
does not carry, such as data, is not copied.  A node whose text is empty cannot be read back, and
its copy is the node itself without children.
-/

namespace StyleTree

variable [Data]

/-- An action on a tree. -/
abbrev Edit (α : Type) : Type := Action Tree α

/-- A child to be placed: a node of the tree, or a text that describes one. -/
inductive Child where
  | node (id : Handle)
  | text (text : String)
deriving DecidableEq, Repr, Inhabited

namespace Edit

variable {σ : Type}

/-! ## Reading -/

/-- The node at a handle, which must have one. -/
def node (id : Handle) : Edit Node := do
  match (← Action.get).get? id with
  | some node => return node
  | none => Action.fail .invalidNode

/-- The items of a text. -/
def read (text : String) : Action σ (List Spec) := do
  let specs ← Action.ofExcept (Css.parse text)
  Action.report (.parsedCss specs.length)
  return specs

/-- The node of a kind that a text describes. -/
def readOne (kind : Kind) (text : String) : Action σ Spec := do
  Action.ofExcept (Css.single kind (← read text))

/-- The tree of a stylesheet. -/
def readTree (text : String) : Action σ Tree := do
  let tree := Tree.ofSpecs (← read text)
  Action.report (.parsedTree tree.size)
  return tree

/-- The tree of the stylesheet in a file. -/
def loadTree (file : File) : Action σ Tree := do
  let tree ← readTree (← Action.ofExcept file.text)
  Action.report .parsedStylesheet
  return tree

/-! ## Making nodes -/

/-- A new orphan of a kind. -/
def create (kind : Kind) : Edit Handle := do
  let id := (← Action.get).next
  Action.modify (·.insert (Node.fresh kind))
  Action.report (.createdNode id kind)
  return id

/-- A new orphan with everything that a description says is below it. -/
def plant (spec : Spec) : Edit Handle := do
  let id := (← Action.get).next
  Action.modify (·.grow spec)
  return id

/-- A new orphan from the first item of a text that is meant for a parent. -/
def plantText (parent : Handle) (text : String) : Edit Handle := do
  let kind := (← node parent).kind
  match ← read text with
  | spec :: _ => plant spec
  | [] => Action.fail (.create kind (.noChild text))

/-- A copy of a node as a new orphan. -/
def copy (id : Handle) : Edit Handle := do
  let source ← node id
  let text ← Action.ofExcept ((← Action.get).text id)
  let spec ← if text = "" then pure source.bare else readOne source.kind text
  let clone ← plant spec
  Action.report (.clonedNode id clone)
  return clone

/-! ## Attributes and data -/

/-- A change of the node at a handle, which must have one. -/
def change (id : Handle) (f : Node → Node) : Edit Unit := do
  let _ ← node id
  Action.modify (·.update id f)

/-- A new name. -/
def setName (id : Handle) (name : String) : Edit Unit :=
  change id fun n => n.rename (some name)

/-- A new value or prelude. -/
def setValue (id : Handle) (value : String) : Edit Unit :=
  change id fun n => { n with value := some value }

/-- A new second name. -/
def setFamily (id : Handle) (family : String) : Edit Unit :=
  change id fun n => { n with family := some family }

/-- A value under a key, on this node alone. -/
def setDatum (id : Handle) (key : String) (datum : Datum) : Edit Unit :=
  change id fun n => { n with data := n.data.insert key datum }

/-- The value under a key taken off this node. -/
def removeDatum (id : Handle) (key : String) : Edit (Option Datum) := do
  let old := (← node id).data[key]?
  Action.modify (·.update id fun n => { n with data := n.data.erase key })
  return old

/-! ## Placing nodes -/

/-- The place for a child among `count` siblings: the end if no index is given, otherwise the index
or the place after it, and never beyond the end.  The end itself is given as no place. -/
def placement (count : Nat) (index : Option Nat) (after : Bool) : Option Nat :=
  match index with
  | none => none
  | some i =>
    if after then (if i = count then none else some (min (i + 1) count))
    else some (min i count)

/-- A child placed below a parent.  It is first taken out of the place it has. -/
def add (parent : Handle) (child : Child) (index : Option Nat) (after : Bool) : Edit Handle := do
  let _ ← node parent
  let id ← match child with
    | .node id => pure id
    | .text text => plantText parent text
  let _ ← node id
  if (← Action.get).isAbove id parent then
    Action.fail .circularParentage
  else
    Action.modify (·.unlink id)
    let position := placement (← node parent).children.length index after
    Action.modify (·.link parent id position)
    Action.report (.addedNode parent id position)
    return id

/-- A child placed last. -/
def append (parent : Handle) (child : Child) : Edit Handle :=
  add parent child none false

/-- A child placed first. -/
def prepend (parent : Handle) (child : Child) : Edit Handle :=
  add parent child (some 0) false

/-- A child placed next to a node, before it or after it; nothing if the node is an orphan. -/
def insertBeside (after : Bool) (id : Handle) (child : Child) : Edit (Option Handle) := do
  let _ ← node id
  match (← Action.get).site? id with
  | some (parent, index) => some <$> add parent child (some index) after
  | none => return none

/-- A child placed right before a node. -/
def insertBefore (id : Handle) (child : Child) : Edit (Option Handle) :=
  insertBeside false id child

/-- A child placed right after a node. -/
def insertAfter (id : Handle) (child : Child) : Edit (Option Handle) :=
  insertBeside true id child

/-- A copy of a node placed right before it. -/
def copyBefore (id : Handle) : Edit (Option Handle) := do
  let clone ← copy id
  insertBefore id (.node clone)

/-- A copy of a node placed right after it. -/
def copyAfter (id : Handle) : Edit (Option Handle) := do
  let clone ← copy id
  insertAfter id (.node clone)

/-- A copy of a node with a text before its name, placed right before the node. -/
def copyPrefixed (id : Handle) (affix : String) : Edit (Option Handle) := do
  let name := (← node id).name.getD ""
  let clone ← copy id
  setName clone (affix ++ name)
  Action.report (.addedVendorPrefix id clone affix)
  insertBefore id (.node clone)

/-! ## Taking nodes out -/

/-- A node taken out of its parent's children, with everything below it left in place. -/
def detach (id : Handle) : Edit Handle := do
  let _ ← node id
  Action.modify (·.unlink id)
  return id

/-- A node taken out, and every node below it made an orphan without children. -/
def remove (id : Handle) : Edit Handle := do
  let _ ← node id
  Action.modify (·.prune id)
  Action.report (.removedNode id)
  return id

/-- A node removed and a child put in its place; nothing if the node is an orphan.  The node is gone
even if the child then cannot be placed. -/
def replaceWith (id : Handle) (child : Child) : Edit (Option Handle) := do
  let _ ← node id
  match (← Action.get).site? id with
  | some (parent, index) =>
    let _ ← remove id
    some <$> add parent child (some index) false
  | none => return none

/-- The children of a node replaced by nodes for a list of texts.  All texts are read first.  The
old children become orphans and keep what is below them. -/
def replaceContent (id : Handle) (texts : List String) : Edit Unit := do
  let _ ← node id
  let children ← texts.mapM (plantText id)
  let old := (← node id).children
  Action.modify fun t =>
    let t := t.update id fun n => { n with children := [] }
    let t := old.foldl (fun t c => t.update c fun n => { n with parent := none }) t
    children.foldl (fun t c => t.link id c none) t

/-- Every node that is not reached from the root freed; the number of them. -/
def compact : Edit Nat := do
  let before ← Action.get
  Action.modify Tree.compact
  let freed := before.size - (← Action.get).size
  Action.report (.compactedTree freed)
  return freed

end Edit

end StyleTree
