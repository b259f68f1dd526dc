import StyleTree.Css.Piece
import StyleTree.Fault
import StyleTree.Spec

/-!
# Items

An item is everything up to a semicolon, a block or the end of the enclosing block.  Its head is the
run of pieces before that; blanks before and after the head do not belong to it.

* A head that starts with an at-keyword is an at-rule; the rest of the head is its prelude.
* Any other head followed by a block is a rule, even an empty head.
* Any other head without a block is a declaration, divided at its first colon.  An empty one is
  nothing at all; one without a colon is a fault, reported where the item starts.

The assembly reads the pieces from left to right and keeps the enclosing blocks on a stack.  It
needs no look-ahead, and the end of the text closes whatever is still open.
-/

namespace StyleTree.Css

open StyleTree.Text

namespace Item

/-- What stops the assembly: the cause, and how many characters come before the place to report. -/
structure Stop where
  cause : ParseCause
  offset : Nat
deriving DecidableEq, Repr, Inhabited

/-- The text of a list of pieces. -/
def textOf (pieces : List Piece) : List Char :=
  pieces.flatMap Piece.text

/-- The pieces of a head in reading order, given last piece first, without the blanks at its end. -/
def headPieces (head : List Piece) : List Piece :=
  (head.dropWhile Piece.isBlank).reverse

/-- The item with a head, given last piece first, and with the children of its block if it has one.
A statement without text is no item. -/
def ofHead (head : List Piece) (body : Option (List Spec)) : Except ParseCause (Option Spec) :=
  match headPieces head with
  | .keyword name _ :: rest =>
    .ok (some (.atRule (String.ofList name) (String.ofList (trim (textOf rest))) body))
  | pieces =>
    let text := trim (textOf pieces)
    match body with
    | some children => .ok (some (.rule (String.ofList text) children))
    | none =>
      if text.isEmpty then .ok none
      else match splitAt? ':' text with
        | some (name, value) =>
          .ok (some (.declaration (String.ofList (trim name)) (String.ofList (trim value))))
        | none => .error (.missingColon (String.ofList text))

/-- A block that is being read: the head before it, and the items before that head in the
enclosing block, the last first. -/
structure Level where
  head : List Piece
  items : List Spec
deriving Repr, Inhabited

/-- How far the assembly has come. -/
structure Assembly where
  /-- The number of characters read. -/
  offset : Nat
  /-- The number of characters before the item that is being read. -/
  start : Nat
  /-- The head of the item that is being read, the last piece first. -/
  head : List Piece
  /-- The finished items of the innermost open block, the last first. -/
  items : List Spec
  /-- The open blocks, the innermost first. -/
  levels : List Level
deriving Repr, Inhabited

namespace Assembly

/-- Nothing read. -/
def empty : Assembly := ⟨0, 0, [], [], []⟩

/-- The assembly after further characters that belong to no item. -/
def skip (a : Assembly) (n : Nat) : Assembly :=
  { a with offset := a.offset + n }

/-- The assembly with one more piece of the current head. -/
def push (a : Assembly) (p : Piece) : Assembly :=
  { a with
    start := if a.head.isEmpty then a.offset else a.start
    head := p :: a.head
    offset := a.offset + p.text.length }

/-- The current head taken as a statement without a block. -/
def endStatement (a : Assembly) : Except Stop Assembly :=
  match ofHead a.head none with
  | .ok item => .ok { a with head := [], items := item.toList ++ a.items }
  | .error cause => .error ⟨cause, a.start⟩

/-- The innermost block closed, its items made the body of the head before it. -/
def endBlock (a : Assembly) (level : Level) (levels : List Level) : Except Stop Assembly :=
  match ofHead level.head (some a.items.reverse) with
  | .ok item => .ok { a with head := [], items := item.toList ++ level.items, levels := levels }
  | .error cause => .error ⟨cause, a.start⟩

/-- One piece read. -/
def step (a : Assembly) (p : Piece) : Except Stop Assembly :=
  match p with
  | .blank text => .ok (if a.head.isEmpty then a.skip text.length else a.push p)
  | .keyword _ _ => .ok (a.push p)
  | .chunk _ => .ok (a.push p)
  | .semicolon => do return (← a.endStatement).skip 1
  | .openBlock =>
    .ok { a.skip 1 with head := [], items := [], levels := ⟨a.head, a.items⟩ :: a.levels }
  | .closeBlock =>
    match a.levels with
    | [] => .error ⟨.strayBrace, a.offset + 1⟩
    | level :: levels => do
      let a ← a.endStatement
      return (← a.endBlock level levels).skip 1

/-- All pieces read in turn. -/
def run : Assembly → List Piece → Except Stop Assembly
  | a, [] => .ok a
  | a, p :: ps => do (← a.step p).run ps

/-- The items of the document, every open block closed in turn. -/
def close : Assembly → List Level → Except Stop (List Spec)
  | a, [] => do return (← a.endStatement).items.reverse
  | a, level :: levels => do
    let a ← a.endStatement
    (← a.endBlock level levels).close levels

end Assembly

/-- The items of a list of pieces. -/
def assemble (pieces : List Piece) : Except Stop (List Spec) := do
  let a ← Assembly.empty.run pieces
  a.close a.levels

end Item

end StyleTree.Css
