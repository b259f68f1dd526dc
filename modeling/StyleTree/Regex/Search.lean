import StyleTree.Regex.Basic

/-!
# Searching for regular expressions

A text matches an expression if the expression matches some part of it.

A search reads the text once and keeps marks on the letters of the expression: a letter is marked if
a match that is under way has read its last character there.  From the marks it follows which
letters can come next.  A new match may begin at every place.  So a search takes time in proportion
to the text, however many ways there are to match it.

Anchors are decided by the place at which they are met, which may be the start and may be the end of
the text.
-/

namespace StyleTree.Regex

/-- A letter of an expression that is searched for. -/
structure Spot where
  chars : Chars
  /-- Whether a match has read its last character here. -/
  marked : Bool
deriving DecidableEq, Repr, Inhabited

/-- An expression that is searched for. -/
abbrev Marked := Expression Spot

/-- The expression before any character is read. -/
def unmarked (r : Regex) : Marked := r.map (⟨·, false⟩)

namespace Marked

/-- Whether a match can be at the end of an expression at a place, given whether one can be before
the expression there. -/
def reaches (atStart atEnd : Bool) : Bool → Marked → Bool
  | before, .nothing => before
  | _, .letter spot => spot.marked
  | before, .start => before && atStart
  | before, .stop => before && atEnd
  | before, .seq first second => reaches atStart atEnd (reaches atStart atEnd before first) second
  | before, .alt first second =>
    reaches atStart atEnd before first || reaches atStart atEnd before second
  | before, .star body => before || reaches atStart atEnd false body
  | before, .plus body => reaches atStart atEnd before body

/-- The marks after one more character, given whether a match can be before the expression.  A
repetition can begin anew where its body ends. -/
def step (atStart : Bool) (c : Char) : Bool → Marked → Marked
  | _, .nothing => .nothing
  | before, .letter spot => .letter { spot with marked := before && spot.chars.contains c }
  | _, .start => .start
  | _, .stop => .stop
  | before, .seq first second =>
    .seq (step atStart c before first) (step atStart c (reaches atStart false before first) second)
  | before, .alt first second => .alt (step atStart c before first) (step atStart c before second)
  | before, .star body => .star (step atStart c (before || reaches atStart false false body) body)
  | before, .plus body => .plus (step atStart c (before || reaches atStart false false body) body)

/-- Whether a match ends at the start of a text or later. -/
def search : Bool → Marked → List Char → Bool
  | atStart, m, [] => m.reaches atStart true true
  | atStart, m, c :: cs => m.reaches atStart false true || search false (m.step atStart c true) cs

end Marked

/-- Whether the expression matches some part of a text. -/
def isMatch (r : Regex) (text : String) : Bool :=
  Marked.search true r.unmarked text.toList

end StyleTree.Regex
