import StyleTree.Fault
import StyleTree.Tree.Branch

/-!
# Printing

The text of a node, with a separator of the client's choice between siblings and around the content
of a block.

* A document is the texts of its children.
* A rule is its prelude and its block, an at-rule its at-sign, its name and then the same.
* An at-rule without a block ends with a semicolon, and so does a declaration.

Texts that are empty are left out before they are joined.  A block without content is not printed,
and neither is the node that owns it: a rule whose declarations are all gone disappears.
-/

namespace StyleTree

variable [Data]

/-- The texts that are not empty, with a separator between them. -/
def joinTexts (separator : String) (texts : List String) : String :=
  String.intercalate separator (texts.filter (· ≠ ""))

/-- A prelude, unless it is absent or empty, followed by what comes after it. -/
def withPrelude (prelude : Option String) (rest : String) : String :=
  match prelude with
  | some p => if p = "" then rest else p ++ " " ++ rest
  | none => rest

/-- A block with its prelude, or nothing if the block has no content. -/
def blockText (separator : String) (prelude : Option String) (body : String) : String :=
  if body = "" then ""
  else withPrelude prelude ("\x7b" ++ separator ++ body ++ separator ++ "\x7d")

namespace Node

/-- The text of a node, given the text of what is below it. -/
def text (separator : String) (node : Node) (body : String) : String :=
  match node.kind with
  | .root => body
  | .rule => blockText separator node.value body
  | .atRule =>
    let name := "@" ++ node.name.getD ""
    if node.block then
      let block := blockText separator node.value body
      if block = "" then "" else name ++ " " ++ block
    else if node.value.getD "" = "" then name ++ ";"
    else name ++ " " ++ node.value.getD "" ++ ";"
  | .declaration =>
    match node.name with
    | some name => name ++ ": " ++ node.value.getD "" ++ ";"
    | none => ""

end Node

namespace Branch

mutual

/-- The text of a branch. -/
def print (separator : String) : Branch → String
  | ⟨_, node, children⟩ => node.text separator (joinTexts separator (printAll separator children))

/-- The texts of several branches. -/
def printAll (separator : String) : List Branch → List String
  | [] => []
  | b :: bs => print separator b :: printAll separator bs

end

end Branch

namespace Tree

/-- The separator of the canonical text. -/
def lineFeed : String := "\n"

/-- The text of a node. -/
def print (t : Tree) (separator : String) (id : Handle) : Except Fault String :=
  match t.branch? id with
  | some branch => .ok (branch.print separator)
  | none => .error .invalidNode

/-- The canonical text of a node: its siblings on lines of their own. -/
def text (t : Tree) (id : Handle) : Except Fault String :=
  t.print lineFeed id

/-- The canonical text of each child of a node. -/
def content (t : Tree) (id : Handle) : Except Fault (List String) :=
  match t.get? id with
  | some node => node.children.mapM t.text
  | none => .error .invalidNode

end Tree

end StyleTree
