import StyleTree.Css.Token

/-!
# Pieces of an item

Between tokens and items stands one simplification: a parenthesis or a square bracket takes
everything up to its partner with it, so that the semicolons, braces and comments inside are text
and no longer structure.  What remains is a flat list of pieces in which only three single
characters matter: the semicolon and the two braces.

Inside a bracket every opening bracket, braces included, must find its partner before the outer one
does; a closing bracket that matches nothing is text.  A bracket that the text never closes takes
the rest of the text.  At the level of items a closing parenthesis or square bracket is text.
-/

namespace StyleTree.Css

/-- A part of an item, or one of the three characters that separate items. -/
inductive Piece where
  | blank (text : List Char)
  /-- An at-sign and a name, with the name decoded. -/
  | keyword (name text : List Char)
  /-- A token without further meaning, or a bracket with all that it holds. -/
  | chunk (text : List Char)
  | semicolon
  | openBlock
  | closeBlock
deriving DecidableEq, Repr, Inhabited

namespace Piece

/-- The part of the text that a piece covers. -/
def text : Piece → List Char
  | blank text => text
  | keyword _ text => text
  | chunk text => text
  | semicolon => [';']
  | openBlock => ['\x7b']
  | closeBlock => ['\x7d']

/-- Whether a piece is blank. -/
def isBlank : Piece → Bool
  | blank _ => true
  | _ => false

/-- The brackets still open after a token, given those open before it, the innermost first. -/
def nest (stack : List Bracket) : Token.Kind → List Bracket
  | .opening b => b :: stack
  | .closing b => if stack.head? = some b then stack.tail else stack
  | _ => stack

/-- The pieces of a list of tokens.  `stack` holds the brackets that are open, the innermost first,
and `held` the lexemes since the outermost of them, the last first. -/
def group : List Bracket → List (List Char) → List Token → List Piece
  | [], _, [] => []
  | _ :: _, held, [] => [chunk held.reverse.flatten]
  | [], _, t :: ts =>
    match t.kind with
    | .blank => blank t.lexeme :: group [] [] ts
    | .atKeyword name => keyword name t.lexeme :: group [] [] ts
    | .semicolon => semicolon :: group [] [] ts
    | .opening .curly => openBlock :: group [] [] ts
    | .closing .curly => closeBlock :: group [] [] ts
    | .opening b => group [b] [t.lexeme] ts
    | .closing _ => chunk t.lexeme :: group [] [] ts
    | .plain => chunk t.lexeme :: group [] [] ts
  | b :: bs, held, t :: ts =>
    match nest (b :: bs) t.kind with
    | [] => chunk (t.lexeme :: held).reverse.flatten :: group [] [] ts
    | b' :: bs' => group (b' :: bs') (t.lexeme :: held) ts

end Piece

/-- The pieces of a text. -/
def pieces (text : List Char) : List Piece :=
  Piece.group [] [] (tokens text)

@[simp] theorem pieces_nil : pieces [] = [] := rfl

end StyleTree.Css
