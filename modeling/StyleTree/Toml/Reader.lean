/-!
# Readers of configuration text

A configuration is read by small readers: a reader takes a first part of a text, or refuses it.  A
reader that is refused takes nothing, so alternatives can be tried in order.

Two kinds of text between the things that matter are common to the whole format.  On one line there
may be spaces, tabs and a comment; inside an array there may also be line ends.  A line ends with a
line feed, with a carriage return and a line feed, or with the text; a carriage return alone ends
nothing.
-/

namespace StyleTree.Toml

/-- Something that takes a first part of a text, or refuses it. -/
abbrev Reader (α : Type) : Type := StateT (List Char) Option α

namespace Reader

variable {α : Type}

/-- The next character. -/
def next : Reader Char := fun cs =>
  match cs with
  | c :: rest => some (c, rest)
  | [] => none

/-- One given character. -/
def char (c : Char) : Reader Unit := fun cs =>
  match cs with
  | d :: rest => if d = c then some ((), rest) else none
  | [] => none

/-- A given text. -/
def word (text : String) : Reader Unit := fun cs =>
  if text.toList.isPrefixOf cs then some ((), cs.drop text.length) else none

/-- The longest run of characters of a class, be it empty. -/
def run (p : Char → Bool) : Reader (List Char) := fun cs =>
  some (cs.takeWhile p, cs.dropWhile p)

/-- So many characters, all of a class. -/
def exactly (n : Nat) (p : Char → Bool) : Reader (List Char) := fun cs =>
  let found := (cs.take n).takeWhile p
  if found.length = n then some (found, cs.drop n) else none

/-- The end of the text. -/
def finish : Reader Unit := fun cs =>
  if cs.isEmpty then some ((), []) else none

/-- As many as there are and at most so many, after those that have been read, the last first. -/
def repeatUpTo (p : Reader α) : Nat → List α → Reader (List α)
  | 0, found => return found.reverse
  | n + 1, found => do
    match ← optional p with
    | some a => repeatUpTo p n (a :: found)
    | none => return found.reverse

/-- As many as there are, each of which takes at least one character. -/
def many (p : Reader α) : Reader (List α) := do
  repeatUpTo p (← get).length []

/-- As many as there are, with a mark between them. -/
def separated (mark : Char) (p : Reader α) : Reader (List α) := do
  match ← optional p with
  | none => return []
  | some first => return first :: (← many (do char mark; p))

@[simp] theorem next_cons (c : Char) (cs : List Char) : next (c :: cs) = some (c, cs) := rfl

@[simp] theorem next_nil : next [] = none := rfl

@[simp] theorem run_apply (p : Char → Bool) (cs : List Char) :
    run p cs = some (cs.takeWhile p, cs.dropWhile p) := rfl

end Reader

open Reader

/-! ## Between the things that matter -/

/-- A space or a tab. -/
def isSpace (c : Char) : Bool :=
  c = ' ' || c = '\t'

/-- Whether a character may stand in a comment or a string: a tab, or anything but a control of
ASCII. -/
def isAllowed (c : Char) : Bool :=
  c = '\t' || (0x20 ≤ c.toNat && c.toNat ≠ 0x7F)

/-- Spaces and tabs. -/
def spaces : Reader Unit := do
  let _ ← run isSpace

/-- The end of a line that is not the end of the text. -/
def newline : Reader Unit :=
  char '\n' <|> word "\r\n"

/-- A comment, up to the end of its line. -/
def comment : Reader Unit := do
  char '#'
  let _ ← run isAllowed

/-- The end of a line: spaces, a comment perhaps, and the line end. -/
def lineEnd : Reader Unit := do
  spaces
  let _ ← optional comment
  newline <|> finish

/-- What may stand between the items of an array: spaces, comments and line ends. -/
def gap : Reader Unit := do
  let _ ← many (do spaces; let _ ← optional comment; newline)
  spaces

end StyleTree.Toml
