import Std.Data.TreeMap
import StyleTree.Handle
import StyleTree.Spec
import StyleTree.Vendor

/-!
# Nodes

A node of a tree: what it is, where it hangs, and the data that clients keep on it.  The vendor of a
node is kept next to its name, so that a walk need not look into the name again.  Renaming is the
one change that sets either, and it sets both.

Data are values under keys.  Clients bring the types of their values with them, and a value is only
ever found by a client that asks for its type.  So the values and their types are a parameter of all
that follows, and all that is known of two types is whether they are the same.
-/

namespace StyleTree

/-- The values that clients keep on nodes. -/
class Data where
  Value : Type
  /-- What tells the types of values apart. -/
  Tag : Type
  tag : Value → Tag
  [decidableEqTag : DecidableEq Tag]

instance [Data] : DecidableEq Data.Tag := Data.decidableEqTag

/-- Values of four types. -/
inductive Basic where
  | text (s : String)
  | flag (b : Bool)
  | list (items : List String)
  | number (n : Int)
deriving DecidableEq, Repr, Inhabited

/-- The four types. -/
inductive Basic.Tag where
  | text
  | flag
  | list
  | number
deriving DecidableEq, Repr, Inhabited

/-- The type of a value. -/
def Basic.tag : Basic → Basic.Tag
  | text _ => .text
  | flag _ => .flag
  | list _ => .list
  | number _ => .number

/-- Data of the four types, unless there are others. -/
instance (priority := low) Data.basic : Data := ⟨Basic, Basic.Tag, Basic.tag⟩

instance : DecidableEq (@Data.Value Data.basic) := inferInstanceAs (DecidableEq Basic)

variable [Data]

/-- A value that a client keeps on a node. -/
abbrev Datum : Type := Data.Value

/-- The type of a value. -/
abbrev DatumType : Type := Data.Tag

/-- The type that a value has. -/
def Datum.type (d : Datum) : DatumType := Data.tag d

/-- The value, if it is of a type. -/
def Datum.as? (type : DatumType) (d : Datum) : Option Datum :=
  if d.type = type then some d else none

/-- A node of a tree. -/
structure Node where
  kind : Kind
  /-- The name of an at-rule without its at-sign, or the property of a declaration. -/
  name : Option String
  /-- The vendor that the name carries. -/
  vendor : Option String
  /-- The value of a declaration, or the prelude of a rule or at-rule. -/
  value : Option String
  /-- A second name, under which handlers are looked up when there are none for the name. -/
  family : Option String
  /-- Whether the node has a block, be it empty. -/
  block : Bool
  parent : Option Handle
  children : List Handle
  data : Std.TreeMap String Datum

namespace Node

/-- A node of a kind with nothing in it. -/
def fresh (kind : Kind) : Node :=
  ⟨kind, none, none, none, none, kind.ownsBlock, none, [], {}⟩

instance : Inhabited Node := ⟨fresh .root⟩

/-- The node with another name, or with none, and with the vendor that goes with it. -/
def rename (node : Node) (name : Option String) : Node :=
  { node with name, vendor := name.bind vendorOfName }

/-- The node that a description begins with, as an orphan without children. -/
def ofSpec (spec : Spec) : Node :=
  (⟨spec.kind, none, none, spec.value, none, spec.block, none, [], {}⟩ : Node).rename spec.name

/-- The description of a node on its own. -/
def bare (node : Node) : Spec :=
  ⟨node.kind, node.name, node.value, node.block, []⟩

/-- The keys under which a node holds data, in order. -/
def keys (node : Node) : List String :=
  node.data.keys

@[simp] theorem bare_ofSpec (spec : Spec) :
    (ofSpec spec).bare = { spec with children := [] } := rfl

end Node

end StyleTree
