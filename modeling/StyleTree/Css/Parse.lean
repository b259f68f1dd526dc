import StyleTree.Css.Item

/-!
# Reading stylesheets

`parse` reads a text into the descriptions of its items, at any depth: rules, at-rules and
declarations are accepted at every level, so the same function reads a document, the content of a
block and the text of a single node.  `create` reads the text of one node whose kind is known.
-/

namespace StyleTree.Css

open StyleTree.Text

/-- The place of an offset in a text. -/
def locate (text : List Char) (offset : Nat) : Position :=
  Position.after (text.take offset)

/-- The items of a text. -/
def parse (text : String) : Except Fault (List Spec) :=
  match Item.assemble (pieces text.toList) with
  | .ok specs => .ok specs
  | .error stop => .error (.parse stop.cause (locate text.toList stop.offset))

/-- The one node of a kind that the items of a text describe: a document of them all, or else the
first of them, which must be of that kind. -/
def single (kind : Kind) (specs : List Spec) : Except Fault Spec :=
  match kind, specs with
  | .root, specs => .ok (.root specs)
  | kind, [] => .error (.create kind .noNode)
  | kind, spec :: _ =>
    if spec.kind = kind then .ok spec else .error (.create kind (.parsedAs spec.kind))

/-- The node of a kind that a text describes. -/
def create (kind : Kind) (text : String) : Except Fault Spec := do
  single kind (← parse text)

end StyleTree.Css
