import StyleTree.Text.Hex
import StyleTree.Text.Hidden

/-!
# Quoted text

Outlines and log events show a text in double quotes, in such a way that every character of it can
be read off: the quote and the backslash are written with a backslash, four controls by a letter or
digit, and any other character that does not show by its code point in braces.
-/

namespace StyleTree.Text

/-- How one character is written between quotes. -/
def quotedChar (c : Char) : String :=
  match c with
  | '\x00' => "\\0"
  | '\t' => "\\t"
  | '\n' => "\\n"
  | '\r' => "\\r"
  | '"' => "\\\""
  | '\\' => "\\\\"
  | c => if isHidden c then "\\u\x7b" ++ hex c.toNat ++ "\x7d" else c.toString

/-- A text in double quotes. -/
def quoted (s : String) : String :=
  "\"" ++ String.join (s.toList.map quotedChar) ++ "\""

/-- A text that may be absent, as `Some` or `None`. -/
def quotedOption : Option String → String
  | none => "None"
  | some s => "Some(" ++ quoted s ++ ")"

/-- A list of texts that are already shown, in square brackets. -/
def bracketed (items : List String) : String :=
  "[" ++ String.intercalate ", " items ++ "]"

end StyleTree.Text
