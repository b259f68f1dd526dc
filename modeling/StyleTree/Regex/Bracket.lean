import StyleTree.Regex.Chars
import StyleTree.Regex.Nested

/-!
# Bracket expressions

A bracket expression lists characters and ranges between square brackets, and may hold further
bracket expressions.

* A circumflex right after the opening bracket takes the complement.
* Hyphens right after that stand for themselves; without them, so does a closing bracket.
* A hyphen between two characters makes a range, unless a closing bracket or another hyphen follows
  it.  Otherwise a hyphen stands for itself.
* `&&`, `--` and `~~` intersect, subtract and take the symmetric difference.  What is listed is
  joined first; then the operations apply from left to right.
* A name between `[:` and `:]` stands for a class of ASCII characters.
-/

namespace StyleTree.Regex

/-- The character that a letter stands for after a backslash. -/
def escapedLetter? (c : Char) : Option Char :=
  [('a', '\x07'), ('f', '\x0c'), ('t', '\t'), ('n', '\n'), ('r', '\r'), ('v', '\x0b')].lookup c

/-- The character that a backslash and a character stand for.  Punctuation stands for itself, but
for the two angle brackets. -/
def escaped? (c : Char) : Option Char :=
  if c.isAlphanum then escapedLetter? c
  else if c.toNat < 128 && c ≠ '<' && c ≠ '>' then some c
  else none

/-- The character that a text starts with, which may be escaped, and how many characters it takes.
-/
def readChar : List Char → Option (Char × Nat)
  | '\\' :: c :: _ => (escaped? c).map fun d => (d, 2)
  | '\\' :: [] => none
  | c :: _ => some (c, 1)
  | [] => none

/-! ## Items -/

/-- The classes of ASCII characters that have a name. -/
def namedClasses : List (String × List (Char × Char)) :=
  [("alnum", [('0', '9'), ('A', 'Z'), ('a', 'z')]),
    ("alpha", [('A', 'Z'), ('a', 'z')]),
    ("ascii", [('\x00', '\x7f')]),
    ("blank", [('\t', '\t'), (' ', ' ')]),
    ("cntrl", [('\x00', '\x1f'), ('\x7f', '\x7f')]),
    ("digit", [('0', '9')]),
    ("graph", [('!', '~')]),
    ("lower", [('a', 'z')]),
    ("print", [(' ', '~')]),
    ("punct", [('!', '/'), (':', '@'), ('[', '\x60'), ('\x7b', '~')]),
    ("space", [('\t', '\r'), (' ', ' ')]),
    ("upper", [('A', 'Z')]),
    ("word", [('0', '9'), ('A', 'Z'), ('_', '_'), ('a', 'z')]),
    ("xdigit", [('0', '9'), ('A', 'F'), ('a', 'f')])]

/-- The named class that a text starts with, and how many characters it takes. -/
def namedClass? (cs : List Char) : Option (Chars × Nat) :=
  namedClasses.findSome? fun (name, ranges) =>
    let plain := "[:" ++ name ++ ":]"
    let inverse := "[:^" ++ name ++ ":]"
    if plain.toList.isPrefixOf cs then some (.ofRanges ranges, plain.length)
    else if inverse.toList.isPrefixOf cs then some (.compl (.ofRanges ranges), inverse.length)
    else none

/-- Whether a text goes on with a hyphen that makes a range. -/
def startsRange : List Char → Bool
  | '-' :: ']' :: _ => false
  | '-' :: '-' :: _ => false
  | '-' :: _ => true
  | _ => false

/-- The character or range that a text starts with, and how many characters it takes.  The ends of a
range must be in order. -/
def readItem (cs : List Char) : Option (Chars × Nat) := do
  let (low, n) ← readChar cs
  if startsRange (cs.drop n) then
    let (high, m) ← readChar (cs.drop (n + 1))
    if low ≤ high then some (.range low high, n + 1 + m) else none
  else return (.single low, n)

/-! ## Brackets -/

/-- An operation on two sets. -/
inductive SetOperation where
  | inter
  | diff
  | symmDiff
deriving DecidableEq, Repr, Inhabited

/-- The operation whose two marks a text starts with. -/
def SetOperation.read? : List Char → Option SetOperation
  | '&' :: '&' :: _ => some .inter
  | '-' :: '-' :: _ => some .diff
  | '~' :: '~' :: _ => some .symmDiff
  | _ => none

/-- The set that an operation makes. -/
def SetOperation.apply : SetOperation → Chars → Chars → Chars
  | inter, a, b => .inter a b
  | diff, a, b => .diff a b
  | symmDiff, a, b => .symmDiff a b

/-- A bracket expression that is still open. -/
structure Bracket where
  negated : Bool
  /-- The operation that waits for its second set, with its first. -/
  pending : Option (SetOperation × Nested Chars)
  /-- The items that have been listed since, last first. -/
  listed : List (Nested Chars)
deriving Repr, Inhabited

namespace Bracket

/-- The bracket with one more item. -/
def push (b : Bracket) (item : Nested Chars) : Bracket :=
  { b with listed := item :: b.listed }

/-- The set up to here. -/
def value (b : Bracket) : Nested Chars :=
  let second := Nested.join Chars.unions b.listed
  match b.pending with
  | some (operation, first) => first.combine operation.apply second
  | none => second

/-- The bracket with an operation that waits for its second set. -/
def operate (b : Bracket) (operation : SetOperation) : Bracket :=
  ⟨b.negated, some (operation, b.value), []⟩

/-- The set of a bracket that is closed. -/
def close (b : Bracket) : Nested Chars :=
  b.value.wrap fun chars => if b.negated then .compl chars else chars

/-- The bracket that a text opens after its opening bracket, and how many characters that takes. -/
def opening (cs : List Char) : Bracket × Nat :=
  let negated := cs.head? = some '^'
  let rest := if negated then cs.tail else cs
  let hyphens := (rest.takeWhile (· = '-')).length
  let taken := (if negated then 1 else 0) + hyphens
  if hyphens > 0 then (⟨negated, none, .replicate hyphens (.leaf (.single '-'))⟩, taken)
  else if rest.head? = some ']' then (⟨negated, none, [.leaf (.single ']')]⟩, taken + 1)
  else (⟨negated, none, []⟩, taken)

end Bracket

/-- The set of a bracket that is open inside others, and how many characters it takes up to the end
of the outermost, after characters that are already accounted for. -/
def readBrackets : Nat → Bracket → List Bracket → List Char → Option (Nested Chars × Nat)
  | _, _, _, [] => none
  | k + 1, b, outer, _ :: cs => (readBrackets k b outer cs).map fun (s, n) => (s, n + 1)
  | 0, b, outer, c :: cs =>
    if c = ']' then
      match outer with
      | [] => some (b.close, 1)
      | parent :: rest =>
        (readBrackets 0 (parent.push b.close) rest cs).map fun (s, n) => (s, n + 1)
    else if c = '[' then
      match namedClass? (c :: cs) with
      | some (item, n) =>
        (readBrackets (n - 1) (b.push (.leaf item)) outer cs).map fun (s, n) => (s, n + 1)
      | none =>
        let (inner, n) := Bracket.opening cs
        (readBrackets n inner (b :: outer) cs).map fun (s, n) => (s, n + 1)
    else
      match SetOperation.read? (c :: cs) with
      | some operation =>
        (readBrackets 1 (b.operate operation) outer cs).map fun (s, n) => (s, n + 1)
      | none => do
        let (item, n) ← readItem (c :: cs)
        (readBrackets (n - 1) (b.push (.leaf item)) outer cs).map fun (s, n) => (s, n + 1)

/-- The set of a bracket expression after its opening bracket, and how many characters it takes. -/
def readBracket (cs : List Char) : Option (Nested Chars × Nat) :=
  let (b, n) := Bracket.opening cs
  readBrackets n b [] cs

end StyleTree.Regex
