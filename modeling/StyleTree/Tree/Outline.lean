import StyleTree.Fault
import StyleTree.Text.Quoted
import StyleTree.Tree.Branch

/-!
# Outlines

An outline shows a branch for inspection, one node to a line.  A line starts with a column mark for
every level above its parent's and a tee or, for a last child, a corner.  It gives the kind and the
name of the node, and as the options say its value in quotes, its vendor, its handle, and on lines
of their own the keys under which it holds data.
-/

namespace StyleTree

open StyleTree.Text

variable [Data]

namespace Outline

/-- The marks that draw the shape of a branch. -/
inductive Style where
  | ascii
  | unicode
  | compact
deriving DecidableEq, Repr, Inhabited

/-- The mark of a level that goes on. -/
def Style.bar : Style → String
  | ascii => "|"
  | unicode => "\u2502"
  | compact => ""

/-- The mark of a child that has further siblings. -/
def Style.tee : Style → String
  | ascii => "+--"
  | unicode => "\u251c\u2500\u2500"
  | compact => "-"

/-- The mark of a last child. -/
def Style.corner : Style → String
  | ascii => "`--"
  | unicode => "\u2514\u2500\u2500"
  | compact => "-"

/-- What an outline shows. -/
structure Options where
  style : Style
  ids : Bool
  values : Bool
  data : Bool
  /-- The depth below which nothing is shown. -/
  depth : Option Nat
  /-- The number of spaces after each bar. -/
  indent : Nat
deriving DecidableEq, Repr

namespace Options

/-- Values, but neither handles nor data. -/
def standard : Options := ⟨.unicode, false, true, false, none, 2⟩

instance : Inhabited Options := ⟨standard⟩

/-- Everything. -/
def detailed : Options := { standard with ids := true, data := true }

/-- Kinds, names and vendors. -/
def minimal : Options := { standard with values := false }

/-- The bars of a number of levels. -/
def bars (o : Options) (levels : Nat) : String :=
  String.join (List.replicate levels (o.style.bar ++ String.ofList (List.replicate o.indent ' ')))

/-- What a line at a depth starts with. -/
def margin (o : Options) (depth : Nat) (isLast : Bool) : String :=
  match depth with
  | 0 => ""
  | d + 1 => o.bars d ++ (if isLast then o.style.corner else o.style.tee) ++ " "

/-- The description of one node. -/
def label (o : Options) (id : Handle) (node : Node) : String :=
  node.kind.word ++
    node.name.elim "" (" " ++ ·) ++
    (if o.values then node.value.elim "" (fun v => " " ++ quoted v) else "") ++
    node.vendor.elim "" (fun v => " <" ++ v ++ ">") ++
    (if o.ids then " [" ++ id.shown ++ "]" else "")

/-- The lines for the keys of a node. -/
def keyLines (o : Options) (depth : Nat) (node : Node) : String :=
  if o.data then String.join (node.keys.map fun key => o.bars depth ++ "  ." ++ key ++ "\n") else ""

mutual

/-- The lines of a branch at a depth. -/
def lines (o : Options) (depth : Nat) (isLast : Bool) : Branch → String
  | ⟨id, node, children⟩ =>
    if o.depth.any (· < depth) then ""
    else o.margin depth isLast ++ o.label id node ++ "\n" ++ o.keyLines depth node ++
      o.linesAll (depth + 1) children

/-- The lines of siblings at a depth. -/
def linesAll (o : Options) (depth : Nat) : List Branch → String
  | [] => ""
  | b :: bs => o.lines depth bs.isEmpty b ++ o.linesAll depth bs

end

end Options

end Outline

/-- The outline of a node and everything below it. -/
def Tree.outline (t : Tree) (options : Outline.Options) (id : Handle) : Except Fault String :=
  match t.branch? id with
  | some branch => .ok (options.lines 0 true branch)
  | none => .error .invalidNode

/-- The fields of a node on one line. -/
def Node.shown (node : Node) : String :=
  "NodeData \x7b kind: " ++ node.kind.word ++
    ", name: " ++ quotedOption node.name ++
    ", vendor: " ++ quotedOption node.vendor ++
    ", value: " ++ quotedOption node.value ++
    ", module: " ++ quotedOption node.family ++
    ", block: " ++ (if node.block then "true" else "false") ++
    ", parent: " ++ Handle.shownOption node.parent ++
    ", children: " ++ bracketed (node.children.map Handle.shown) ++ ", .. \x7d"

/-- The root of a tree and the number of its nodes on one line. -/
def Tree.shown (t : Tree) : String :=
  "Tree \x7b root: " ++ t.root.shown ++ ", nodes: " ++ toString t.size ++ ", .. \x7d"

end StyleTree
