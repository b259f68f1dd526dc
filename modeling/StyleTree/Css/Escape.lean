import StyleTree.Text.Blank
import StyleTree.Text.Hex

/-!
# Names and escapes

A name of the grammar is a run of name characters and escapes.  An escape is a backslash followed
by one to six hexadecimal digits and at most one separator, or by any other character but a line
end, which then stands for itself.  This module measures an escape, says which character it
stands for, and decodes the text of a whole name.

Lengths count the characters *after* the backslash, so the scanners of the neighbouring module can
step over an escape by dropping that many characters.
-/

namespace StyleTree.Css

open StyleTree.Text

/-- The character that stands for a code point no text can hold. -/
def replacement : Char := '\uFFFD'

/-- The hexadecimal digits that a text starts with, six at most. -/
def hexDigits (s : List Char) : List Char :=
  (s.take 6).takeWhile isHexDigit

/-- The length of the single separator that may close a hexadecimal escape. -/
def separatorLength : List Char → Nat
  | '\r' :: '\n' :: _ => 2
  | c :: _ => if isSeparator c then 1 else 0
  | [] => 0

/-- The number of characters of an escape after its backslash; none at the end of the text. -/
def escapeLength : List Char → Nat
  | [] => 0
  | c :: cs =>
    if isHexDigit c then
      let n := (hexDigits (c :: cs)).length
      n + separatorLength ((c :: cs).drop n)
    else 1

/-- The character with a code point, or the replacement character for zero, for a surrogate and
for a number beyond Unicode. -/
def ofCodePoint (n : Nat) : Char :=
  if n ≠ 0 ∧ n.isValidChar then Char.ofNat n else replacement

/-- The character that an escape stands for, read from the text after its backslash. -/
def escapedChar : List Char → Char
  | [] => replacement
  | c :: cs =>
    if isHexDigit c then
      ofCodePoint (hexValue (hexDigits (c :: cs)))
    else if c = '\x00' then replacement
    else c

/-- The name that a text of name characters and escapes spells, after `skip` characters of an
escape that is already accounted for. -/
def decodeFrom : Nat → List Char → List Char
  | _, [] => []
  | k + 1, _ :: cs => decodeFrom k cs
  | 0, c :: cs =>
    if c = '\\' then escapedChar cs :: decodeFrom (escapeLength cs) cs
    else (if c = '\x00' then replacement else c) :: decodeFrom 0 cs

/-- The name that a text of name characters and escapes spells. -/
def decodeName (s : List Char) : List Char :=
  decodeFrom 0 s

@[simp] theorem decodeName_nil : decodeName [] = [] := rfl

end StyleTree.Css
