import StyleTree.Css.Escape

/-!
# Measuring lexemes

How far each kind of lexeme reaches.  Every function here takes the rest of the text and answers
with a number of characters; the tokenizer then cuts the text there.  Nothing is decoded and
nothing is dropped, so the lexemes of a text concatenate to the text whatever these numbers are.

A scan that steps over an escape or a line end of two characters carries the number of characters
still to be skipped.  In this way each scan is a plain recursion on the text.
-/

namespace StyleTree.Css

open StyleTree.Text

/-! ## Names -/

/-- A character beyond ASCII. -/
def isNonAscii (c : Char) : Bool := 0x80 ≤ c.toNat

/-- The characters that a name may start with. -/
def isNameStart (c : Char) : Bool :=
  c.isAlpha || c == '_' || c == '\x00' || isNonAscii c

/-- The characters that a name may hold unescaped. -/
def isNameChar (c : Char) : Bool :=
  isNameStart c || c.isDigit || c == '-'

/-- Whether a name starts here.  A hyphen starts one if a name character other than a digit, or
any backslash, follows it. -/
def startsName : List Char → Bool
  | '-' :: c :: _ => isNameStart c || c == '-' || c == '\\'
  | '\\' :: cs => !startsNewline cs
  | c :: _ => isNameStart c
  | [] => false

/-- The number of characters of the name that the text starts with, `skip` characters included
that belong to an escape. -/
def nameLength : Nat → List Char → Nat
  | _, [] => 0
  | k + 1, _ :: cs => nameLength k cs + 1
  | 0, c :: cs =>
    if isNameChar c then nameLength 0 cs + 1
    else if c == '\\' && !startsNewline cs then nameLength (escapeLength cs) cs + 1
    else 0

/-! ## Numbers -/

/-- Whether a digit comes next. -/
def startsDigit : List Char → Bool
  | d :: _ => d.isDigit
  | [] => false

/-- Whether a point and a digit come next. -/
def startsFraction : List Char → Bool
  | '.' :: cs => startsDigit cs
  | _ => false

/-- Whether a number starts here: a digit, or a sign or point with the digits it needs. -/
def startsNumber : List Char → Bool
  | c :: cs =>
    startsDigit (c :: cs) || startsFraction (c :: cs) ||
      ((c == '+' || c == '-') && (startsDigit cs || startsFraction cs))
  | [] => false

/-- The number of digits that the text starts with. -/
def digitsLength (s : List Char) : Nat :=
  (s.takeWhile Char.isDigit).length

/-- The length of the sign that the text starts with. -/
def signLength : List Char → Nat
  | c :: _ => if c == '+' || c == '-' then 1 else 0
  | [] => 0

/-- The length of a point followed by digits. -/
def fractionLength : List Char → Nat
  | '.' :: d :: cs => if d.isDigit then digitsLength cs + 2 else 0
  | _ => 0

/-- The length of an exponent: its mark, an optional sign, and at least one digit. -/
def exponentLength : List Char → Nat
  | c :: cs =>
    if c == 'e' || c == 'E' then
      let sign := signLength cs
      let digits := digitsLength (cs.drop sign)
      if digits = 0 then 0 else 1 + sign + digits
    else 0
  | [] => 0

/-- The length of the percent sign or the unit of a number. -/
def unitLength : List Char → Nat
  | '%' :: _ => 1
  | s => if startsName s then nameLength 0 s else 0

/-- The length of the number that the text starts with, its unit included. -/
def numberLength (s : List Char) : Nat :=
  let n := signLength s
  let n := n + digitsLength (s.drop n)
  let n := n + fractionLength (s.drop n)
  let n := n + exponentLength (s.drop n)
  n + unitLength (s.drop n)

/-! ## Strings and comments -/

/-- The length of a string after its opening quote.  It ends with the same quote, before a line
end, or with the text; a backslash escapes a quote or a line end. -/
def stringLength (quote : Char) : Nat → List Char → Nat
  | _, [] => 0
  | k + 1, _ :: cs => stringLength quote k cs + 1
  | 0, c :: cs =>
    if c == quote then 1
    else if isNewline c then 0
    else if c == '\\' then
      stringLength quote (if startsNewline cs then newlineLength cs else escapeLength cs) cs + 1
    else stringLength quote 0 cs + 1

/-- The length of a comment after its opening mark.  It ends with its closing mark or with the
text. -/
def commentLength : List Char → Nat
  | '*' :: '/' :: _ => 2
  | _ :: cs => commentLength cs + 1
  | [] => 0

/-! ## Unquoted addresses -/

/-- The length of what remains of an address that is not well formed: up to its closing
parenthesis, a backslash hiding a parenthesis or a backslash. -/
def badUrlLength : List Char → Nat
  | ')' :: _ => 1
  | '\\' :: ')' :: cs => badUrlLength cs + 2
  | '\\' :: '\\' :: cs => badUrlLength cs + 2
  | _ :: cs => badUrlLength cs + 1
  | [] => 0

/-- The length of what follows the first separator inside an address: separators and the closing
parenthesis, or else the address is not well formed. -/
def urlEndLength : List Char → Nat
  | [] => 0
  | c :: cs =>
    if c == ')' then 1
    else if isSeparator c then urlEndLength cs + 1
    else badUrlLength cs + 1

/-- The characters that spoil an unquoted address. -/
def spoilsUrl (c : Char) : Bool :=
  let n := c.toNat
  c == '"' || c == '\'' || c == '(' || (0x01 ≤ n && n ≤ 0x08) || n == 0x0B ||
    (0x0E ≤ n && n ≤ 0x1F) || n == 0x7F

/-- The length of an unquoted address from its first character on. -/
def urlBodyLength : Nat → List Char → Nat
  | _, [] => 0
  | k + 1, _ :: cs => urlBodyLength k cs + 1
  | 0, c :: cs =>
    if c == ')' then 1
    else if isSeparator c then urlEndLength cs + 1
    else if spoilsUrl c then badUrlLength cs + 1
    else if c == '\\' then
      if startsNewline cs then badUrlLength cs + 1
      else urlBodyLength (escapeLength cs) cs + 1
    else urlBodyLength 0 cs + 1

/-- The length of an address after its opening parenthesis, or `none` if a quote comes first: then
the parenthesis opens an ordinary bracket. -/
def urlLength? : List Char → Option Nat
  | [] => some 0
  | c :: cs =>
    if isSeparator c then (urlLength? cs).map (· + 1)
    else if c == '"' || c == '\'' then none
    else some (urlBodyLength 0 (c :: cs))

end StyleTree.Css
