import StyleTree.Toml.Scalar
import StyleTree.Toml.Table

/-!
# Documents

A document is a list of lines: assignments of values to keys, and headers, each of which says which
table the assignments after it belong to.  A value may span several lines, if it is an array or a
tripled string.

Reading takes two steps.  The text is cut into lines (`lines`), which is grammar alone; then the
lines are entered one after the other into the top table (`Document.enter`), which is where a key
that is given twice is refused.
-/

namespace StyleTree.Toml

open Reader

/-! ## Values -/

/-- An array of values.  A comma may follow the last. -/
def array (value : Reader Value) : Reader Value := do
  char '['
  let items ← separated ',' (do gap; let item ← value; gap; return item)
  if !items.isEmpty then
    let _ ← optional (char ',')
  gap
  char ']'
  return .list items

/-- A key and its value. -/
def assignment (value : Reader Value) : Reader (List String × Value) := do
  let path ← key
  char '='
  spaces
  return (path, ← value)

/-- A table on one line.  No comma may follow the last entry. -/
def inlineTable (value : Reader Value) : Reader Value := do
  char '\x7b'
  let assignments ← separated ',' (do let a ← assignment value; spaces; return a)
  spaces
  let entries ← Entries.ofAssignments assignments
  char '\x7d'
  return (Item.table .stated entries).toValue

/-- A value, in which arrays and inline tables stand in each other at most so deep. -/
def valueWithin : Nat → Reader Value
  | 0 => scalar
  | depth + 1 => scalar <|> array (valueWithin depth) <|> inlineTable (valueWithin depth)

/-- A value. -/
def value : Reader Value :=
  valueWithin (depthLimit - 1)

/-! ## Lines -/

/-- What a line says. -/
inductive Line where
  /-- Nothing. -/
  | blank
  /-- A key has a value. -/
  | assignment (path : List String) (value : Value)
  /-- A table begins. -/
  | table (path : List String)
  /-- One more table of an array of tables begins. -/
  | element (path : List String)
deriving Inhabited

/-- A line. -/
def line : Reader Line := do
  spaces
  (do lineEnd; return .blank) <|>
    (do word "[["; let path ← key; word "]]"; lineEnd; return .element path) <|>
    (do char '['; let path ← key; char ']'; lineEnd; return .table path) <|>
    (do let (path, v) ← assignment value; lineEnd; return .assignment path v)

/-- The lines of a text, at most so many. -/
def linesUpTo : Nat → List Char → Option (List Line)
  | _, [] => some []
  | 0, _ => none
  | n + 1, cs => do
    let (first, rest) ← line cs
    return first :: (← linesUpTo n rest)

/-- The mark that a text may start with. -/
def byteOrderMark : Char := '\uFEFF'

/-- The lines of a text. -/
def lines (text : String) : Option (List Line) :=
  let cs := text.toList
  let cs := if cs.head? = some byteOrderMark then cs.tail else cs
  linesUpTo cs.length cs

/-! ## Documents -/

/-- The top table, and the path of the table that assignments belong to. -/
structure Document where
  path : List String
  entries : Entries
deriving Inhabited

namespace Document

/-- A document without lines. -/
def empty : Document := ⟨[], []⟩

/-- The document with a header, of which `state` says what it does in the table above. -/
def enterHeader (d : Document) (state : String → Entries → Option Entries) (path : List String) :
    Option Document := do
  let key ← path.getLast?
  return ⟨path, ← d.entries.change false (fun _ => state key) path.dropLast .stated⟩

/-- The document with one more line. -/
def enter (d : Document) : Line → Option Document
  | .blank => some d
  | .assignment path value => do
    let key ← path.getLast?
    return { d with
      entries := ← d.entries.change false (fun _ inner => inner.assign path.dropLast key value)
        d.path .stated }
  | .table path => d.enterHeader Entries.stateTable path
  | .element path => d.enterHeader Entries.stateElement path

end Document

/-- The top table of a configuration text, if it is well-formed. -/
def parse? (text : String) : Option (List (String × Value)) := do
  let document ← (← lines text).foldlM Document.enter Document.empty
  return Item.toValues document.entries

end StyleTree.Toml
