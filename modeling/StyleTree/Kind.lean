/-!
# Kinds of nodes

A stylesheet is made of four kinds of nodes.  Their words appear in queries, in messages and in the
printed outline of a tree, so there is one spelling of them, `Kind.word`.
-/

namespace StyleTree

/-- What a node is. -/
inductive Kind where
  /-- The document. -/
  | root
  /-- A selector with a block. -/
  | rule
  /-- An at-sign, a name and a prelude, with a block or without one. -/
  | atRule
  /-- A property and its value. -/
  | declaration
deriving DecidableEq, Repr, Inhabited

namespace Kind

/-- The word for a kind. -/
def word : Kind → String
  | root => "Root"
  | rule => "Rule"
  | atRule => "AtRule"
  | declaration => "Declaration"

/-- Every kind, in the order in which they are listed. -/
def all : List Kind :=
  [root, rule, atRule, declaration]

/-- The kind with a word. -/
def ofWord? (word : String) : Option Kind :=
  all.find? (·.word == word)

/-- Whether a fresh node of this kind owns a block. -/
def ownsBlock : Kind → Bool
  | root => true
  | rule => true
  | atRule => false
  | declaration => false

end Kind

end StyleTree
