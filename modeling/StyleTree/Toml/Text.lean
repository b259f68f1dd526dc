import StyleTree.Text.Hex
import StyleTree.Toml.Reader

/-!
# Strings of a configuration

There are four forms of strings.  Between double quotes a backslash starts an escape; between single
quotes every character stands for itself.  Either form may be tripled, and then it may hold line
ends, which are read as line feeds, and quotes as long as three do not stand together.  A line end
right after the opening quotes is dropped.

The closing quotes of a tripled form are the last three of their run: one or two more quotes before
them belong to the string.
-/

namespace StyleTree.Toml

open Reader

/-- The character that so many hexadecimal digits number. -/
def codePoint (width : Nat) : Reader Char := do
  let digits ← exactly width Text.isHexDigit
  let n := Text.hexValue digits
  guard n.isValidChar
  return Char.ofNat n

/-- The character that an escape stands for, after its backslash. -/
def escape : Reader Char := do
  match ← next with
  | 'b' => return '\x08'
  | 'f' => return '\x0c'
  | 'n' => return '\n'
  | 'r' => return '\r'
  | 't' => return '\t'
  | '"' => return '"'
  | '\\' => return '\\'
  | 'u' => codePoint 4
  | 'U' => codePoint 8
  | _ => failure

/-- The rest of a string on one line, given what has been read of it, the last first. -/
def shortRest (quote : Char) (escapes : Bool) : Nat → List Char → Reader String
  | 0, _ => failure
  | n + 1, found => do
    let c ← next
    if c = quote then return String.ofList found.reverse
    else if escapes && c = '\\' then shortRest quote escapes n ((← escape) :: found)
    else if isAllowed c then shortRest quote escapes n (c :: found)
    else failure

/-- A string on one line. -/
def shortString (quote : Char) (escapes : Bool) : Reader String := do
  char quote
  shortRest quote escapes (← get).length []

/-- A line end that a backslash hides, after the backslash, with all blanks and line ends after it.
-/
def hiddenLineEnd : Reader Unit := do
  spaces
  newline
  let _ ← many ((do let c ← next; guard (isSpace c)) <|> newline)

/-- The quotes that end a tripled string, or stand in it: none if the string goes on, and otherwise
how many of them belong to it. -/
def closing (run : Nat) : Option Nat :=
  if run < 3 then none else some (min (run - 3) 2)

/-- The rest of a tripled string, given what has been read of it, the last first. -/
def longRest (quote : Char) (escapes : Bool) : Nat → List Char → Reader String
  | 0, _ => failure
  | n + 1, found => do
    match ← optional newline with
    | some _ => longRest quote escapes n ('\n' :: found)
    | none =>
      let quotes := ((← get).takeWhile (· = quote)).length
      if quotes > 0 then
        match closing quotes with
        | some kept =>
          set ((← get).drop (kept + 3))
          return String.ofList (List.replicate kept quote ++ found).reverse
        | none =>
          set ((← get).drop quotes)
          longRest quote escapes n (List.replicate quotes quote ++ found)
      else
        let c ← next
        if escapes && c = '\\' then
          match ← optional hiddenLineEnd with
          | some _ => longRest quote escapes n found
          | none => longRest quote escapes n ((← escape) :: found)
        else if isAllowed c then longRest quote escapes n (c :: found)
        else failure

/-- A tripled string. -/
def longString (quote : Char) (escapes : Bool) : Reader String := do
  word (String.ofList [quote, quote, quote])
  let _ ← optional newline
  longRest quote escapes (← get).length []

/-- A string in any of its forms. -/
def string : Reader String :=
  longString '"' true <|> shortString '"' true <|>
    longString '\'' false <|> shortString '\'' false

/-- Whether a character may stand in a key without quotes. -/
def isBare (c : Char) : Bool :=
  c.isAlphanum || c = '-' || c = '_'

/-- One part of a key. -/
def keyPart : Reader String :=
  shortString '"' true <|> shortString '\'' false <|> do
    let cs ← run isBare
    guard !cs.isEmpty
    return String.ofList cs

/-- The number of parts that a key may not reach, and of arrays and inline tables that may not stand
in each other. -/
def depthLimit : Nat := 80

/-- A key: its parts, of which there is at least one, with points between them. -/
def key : Reader (List String) := do
  let parts ← separated '.' (do spaces; let part ← keyPart; spaces; return part)
  guard (!parts.isEmpty && parts.length < depthLimit)
  return parts

end StyleTree.Toml
