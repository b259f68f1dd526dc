import StyleTree.Regex.Basic
import StyleTree.Regex.Bracket

/-!
# Reading regular expressions

A text is read from left to right.  What is read of the innermost open group is a draft:
alternatives that are complete, and the factors of the one at hand.  A parenthesis opens a new draft
or closes the current one into a factor of the one around it.

A repetition applies to the factor before it, which must be there.  A question mark right after a
repetition asks for the fewest matches; that changes what is matched but not whether anything is, so
it is passed over.

An expression may be nested only so deep.
-/

namespace StyleTree.Regex

/-- How deep an expression may be nested. -/
def depthLimit : Nat := 250

/-- The sequence of factors that are given last first. -/
def ofFactors (factors : List Regex) : Regex :=
  match factors with
  | [] => .nothing
  | last :: rest => rest.foldl (fun r f => .seq f r) last

/-- The choice between alternatives that are given last first. -/
def ofAlternatives (alternatives : List Regex) : Regex :=
  match alternatives with
  | [] => .nothing
  | last :: rest => rest.foldl (fun r a => .alt a r) last

/-- Alternatives that are still being read: those that are complete and the factors of the current
one, both last first. -/
structure Draft where
  complete : List (Nested Regex)
  factors : List (Nested Regex)
deriving Inhabited

/-- The alternatives of a draft with the current one, last first. -/
def Draft.alternatives (d : Draft) : List (Nested Regex) :=
  Nested.join ofFactors d.factors :: d.complete

/-- The expression of a draft that is complete. -/
def Draft.expression (d : Draft) : Nested Regex :=
  Nested.join ofAlternatives d.alternatives

/-- How far the reading has come. -/
structure Reading where
  draft : Draft
  /-- The drafts around the open groups, the innermost first. -/
  outer : List Draft
  /-- Whether a repetition has just been read, so that a question mark only makes it lazy. -/
  repeated : Bool
deriving Inhabited

/-- The reading with one more factor. -/
def Reading.push (r : Reading) (factor : Nested Regex) : Reading :=
  { r with draft := { r.draft with factors := factor :: r.draft.factors }, repeated := false }

/-- The reading with its last factor repeated, if there is one. -/
def Reading.repeatLast (r : Reading) (f : Regex → Regex) : Option Reading :=
  match r.draft.factors with
  | [] => none
  | factor :: rest =>
    some { r with draft := { r.draft with factors := factor.wrap f :: rest }, repeated := true }

/-- The reading of the rest of an expression, after characters that are already accounted for. -/
def readFrom : Nat → Reading → List Char → Option (Nested Regex)
  | _, r, [] => if r.outer.isEmpty then some r.draft.expression else none
  | k + 1, r, _ :: cs => readFrom k r cs
  | 0, r, c :: cs =>
    match c with
    | '(' => readFrom 0 ⟨⟨[], []⟩, r.draft :: r.outer, false⟩ cs
    | ')' =>
      match r.outer with
      | [] => none
      | outer :: rest =>
        readFrom 0 (Reading.push ⟨outer, rest, false⟩ (r.draft.expression.wrap id)) cs
    | '|' => readFrom 0 ⟨⟨r.draft.alternatives, []⟩, r.outer, false⟩ cs
    | '*' => do readFrom 0 (← r.repeatLast .star) cs
    | '+' => do readFrom 0 (← r.repeatLast .plus) cs
    | '?' =>
      if r.repeated then readFrom 0 { r with repeated := false } cs
      else do readFrom 0 (← r.repeatLast optional) cs
    | '.' => readFrom 0 (r.push (.leaf any)) cs
    | '^' => readFrom 0 (r.push (.leaf .start)) cs
    | '$' => readFrom 0 (r.push (.leaf .stop)) cs
    | '[' => do
      let (chars, n) ← readBracket cs
      readFrom n (r.push (chars.map .letter)) cs
    | '\\' =>
      match cs with
      | d :: _ => do readFrom 1 (r.push (.leaf (char (← escaped? d)))) cs
      | [] => none
    | '\x7b' => none
    | c => readFrom 0 (r.push (.leaf (char c))) cs

/-- The expression that a text spells, if it spells one that is not nested too deep. -/
def parse? (text : String) : Option Regex := do
  let expression ← readFrom 0 ⟨⟨[], []⟩, [], false⟩ text.toList
  if expression.depth ≤ depthLimit then some expression.value else none

end StyleTree.Regex
