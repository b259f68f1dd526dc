import StyleTree.Text.Blank

/-!
# Positions in a text

A fault in a stylesheet is reported by line and column.  Lines and columns count from one.  A line
ends at a line feed, a form feed, a carriage return, or a carriage return and a line feed together.
A column counts UTF-16 code units, so a character beyond the Basic Multilingual Plane takes two.

The position just after a text is a function of that text alone (`Position.after`): the reader
itself only counts characters, and asks for the position of an offset when it has to report one.
-/

namespace StyleTree.Text

/-- A line and a column, both counted from one. -/
structure Position where
  line : Nat
  column : Nat
deriving DecidableEq, Repr, Inhabited

namespace Position

/-- The number of UTF-16 code units of a character. -/
def units (c : Char) : Nat :=
  if c.toNat < 0x10000 then 1 else 2

/-- The position of the first character of a text. -/
def start : Position := ⟨1, 1⟩

/-- The start of the next line. -/
def nextLine (p : Position) : Position := ⟨p.line + 1, 1⟩

/-- The position reached from `p` by reading a text. -/
def advance (p : Position) : List Char → Position
  | [] => p
  | '\r' :: '\n' :: cs => advance p.nextLine cs
  | c :: cs => advance (if isNewline c then p.nextLine else ⟨p.line, p.column + units c⟩) cs

/-- The position just after a text. -/
def after (text : List Char) : Position :=
  start.advance text

@[simp] theorem advance_nil (p : Position) : p.advance [] = p := rfl

@[simp] theorem after_nil : after [] = start := rfl

end Position

end StyleTree.Text
