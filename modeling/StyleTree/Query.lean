import StyleTree.Regex.Parse
import StyleTree.Regex.Search
import StyleTree.Tree.Node

/-!
# Queries

A query asks for nodes by four attributes: kind, name, value and vendor.  Each attribute has a
pattern, and a node answers the query if every pattern accepts its attribute.  An attribute that is
absent is accepted by the pattern `any` alone.
-/

namespace StyleTree

/-- What an attribute has to look like. -/
inductive Pattern where
  /-- Anything, also an absent attribute. -/
  | any
  /-- Present and not empty. -/
  | present
  | exact (text : String)
  | oneOf (texts : List String)
  /-- Present, and matched in part by an expression. -/
  | regex (expression : Regex)
deriving Repr, Inhabited

namespace Pattern

/-- Whether a pattern accepts an attribute. -/
def accepts (p : Pattern) (found : Option String) : Bool :=
  match p, found with
  | any, _ => true
  | present, some s => s ≠ ""
  | exact text, some s => s = text
  | oneOf texts, some s => texts.contains s
  | regex expression, some s => expression.isMatch s
  | _, none => false

/-- The pattern that a plain text stands for: itself, or anything if the text is empty. -/
def ofText (text : String) : Pattern :=
  if text = "" then any else exact text

/-- The pattern that a flag stands for. -/
def ofFlag (wanted : Bool) : Pattern :=
  if wanted then present else any

/-- The pattern that accepts one kind. -/
def ofKind (kind : Kind) : Pattern :=
  exact kind.word

/-- The pattern that accepts several kinds. -/
def ofKinds (kinds : List Kind) : Pattern :=
  oneOf (kinds.map Kind.word)

@[simp] theorem accepts_any (a : Option String) : any.accepts a = true := rfl

@[simp] theorem accepts_exact_some (t s : String) :
    (exact t).accepts (some s) = decide (s = t) := rfl

end Pattern

/-- A pattern for each attribute. -/
structure Query where
  kind : Pattern
  name : Pattern
  value : Pattern
  vendor : Pattern
deriving Repr

namespace Query

/-- The query that every node answers. -/
def any : Query := ⟨.any, .any, .any, .any⟩

instance : Inhabited Query := ⟨any⟩

variable [Data]

/-- Whether a node answers a query. -/
def accepts (q : Query) (node : Node) : Bool :=
  q.kind.accepts (some node.kind.word) && q.name.accepts node.name &&
    q.value.accepts node.value && q.vendor.accepts node.vendor

@[simp] theorem accepts_any (node : Node) : any.accepts node = true := rfl

end Query

end StyleTree
