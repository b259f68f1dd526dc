import StyleTree.Regex.Chars

/-!
# Regular expressions

The expressions that a query may use: characters, the point, sets in square brackets, groups,
alternatives, the three repetitions, and the anchors for both ends of a text.

An expression is a tree whose letters are of some type.  The letters of an expression that has been
read are sets of characters; a search puts a mark on each of them.
-/

namespace StyleTree

namespace Regex

/-- A regular expression over some letters. -/
inductive Expression (Letter : Type) where
  /-- The empty text. -/
  | nothing
  /-- One character that matches a letter. -/
  | letter (l : Letter)
  /-- The start of the whole text. -/
  | start
  /-- The end of the whole text. -/
  | stop
  | seq (first second : Expression Letter)
  | alt (first second : Expression Letter)
  /-- Any number of matches in a row. -/
  | star (body : Expression Letter)
  /-- One match or more in a row. -/
  | plus (body : Expression Letter)
deriving DecidableEq, Repr, Inhabited

/-- The same expression over other letters. -/
def Expression.map {α β : Type} (f : α → β) : Expression α → Expression β
  | nothing => nothing
  | letter l => letter (f l)
  | start => start
  | stop => stop
  | seq first second => seq (first.map f) (second.map f)
  | alt first second => alt (first.map f) (second.map f)
  | star body => star (body.map f)
  | plus body => plus (body.map f)

end Regex

/-- A regular expression. -/
abbrev Regex := Regex.Expression Regex.Chars

namespace Regex

/-- One given character. -/
def char (c : Char) : Regex := .letter (.single c)

/-- Any character but a line feed. -/
def any : Regex := .letter (.compl (.single '\n'))

/-- A match or none. -/
def optional (body : Regex) : Regex := .alt body .nothing

end Regex

end StyleTree
