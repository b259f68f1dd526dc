import StyleTree.Kind

/-!
# Descriptions of nodes

A description says what a node is and what is below it, with no reference to any tree.  The reader
of stylesheets produces descriptions, a tree turns them into nodes, and a node is copied by way of
the description of its printed text.
-/

namespace StyleTree

/-- A node and everything below it. -/
structure Spec where
  kind : Kind
  /-- The name of an at-rule without its at-sign, or the property of a declaration. -/
  name : Option String
  /-- The value of a declaration, or the prelude of a rule or at-rule. -/
  value : Option String
  /-- Whether the node has a block, be it empty. -/
  block : Bool
  children : List Spec
deriving BEq, Repr

namespace Spec

instance : Inhabited Spec := ⟨⟨.root, none, none, true, []⟩⟩

/-- A document. -/
def root (children : List Spec) : Spec :=
  ⟨.root, none, none, true, children⟩

/-- A rule. -/
def rule (prelude : String) (children : List Spec) : Spec :=
  ⟨.rule, none, some prelude, true, children⟩

/-- An at-rule.  An empty prelude is the same as none; `none` for the body is a statement without
a block. -/
def atRule (name prelude : String) (body : Option (List Spec)) : Spec :=
  ⟨.atRule, some name, if prelude = "" then none else some prelude, body.isSome, body.getD []⟩

/-- A declaration. -/
def declaration (name value : String) : Spec :=
  ⟨.declaration, some name, some value, false, []⟩

mutual

/-- The number of nodes described. -/
def size : Spec → Nat
  | ⟨_, _, _, _, children⟩ => sizeAll children + 1

/-- The number of nodes that a list of descriptions describes. -/
def sizeAll : List Spec → Nat
  | [] => 0
  | s :: ss => size s + sizeAll ss

end

end Spec

end StyleTree
