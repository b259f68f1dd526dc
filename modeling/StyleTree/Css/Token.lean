import StyleTree.Css.Scan

/-!
# Tokens

A token is a lexeme with the little that the item grammar needs to know about it: whether it is
blank, names an at-rule, ends an item, or opens or closes a bracket.  Strings, numbers, addresses,
identifiers and single characters all carry text and nothing else, so they are one kind, `plain`.

Where a token ends does not depend on the tokens before it.  The text is therefore cut into tokens
once, and the tokens keep every character: `flatMap_lexeme_tokens` says that their lexemes
concatenate to the text.
-/

namespace StyleTree.Css

open StyleTree.Text

/-- The three pairs of brackets. -/
inductive Bracket where
  | round
  | square
  | curly
deriving DecidableEq, Repr, Inhabited

namespace Token

/-- What a token means to the grammar of items. -/
inductive Kind where
  /-- Separators or a comment. -/
  | blank
  /-- An at-sign and a name, given here decoded. -/
  | atKeyword (name : List Char)
  | semicolon
  /-- An opening bracket, or a name with the parenthesis that makes it a function. -/
  | opening (bracket : Bracket)
  | closing (bracket : Bracket)
  /-- Anything else. -/
  | plain
deriving DecidableEq, Repr, Inhabited

end Token

/-- A piece of the text and what it means. -/
structure Token where
  kind : Token.Kind
  lexeme : List Char
deriving DecidableEq, Repr, Inhabited

namespace Token

/-- Whether a name spells `url` in any case. -/
def isUrlName (name : List Char) : Bool :=
  (decodeName name).map Char.toLower == ['u', 'r', 'l']

/-- A name, or a function if a parenthesis follows the name directly, or an unquoted address: the
kind of the token and its length. -/
def readName (s : List Char) : Kind × Nat :=
  let n := nameLength 0 s
  match s.drop n with
  | '(' :: rest =>
    if isUrlName (s.take n) then
      match urlLength? rest with
      | some m => (.plain, n + 1 + m)
      | none => (.opening .round, n + 1)
    else (.opening .round, n + 1)
  | _ => (.plain, n)

/-- The kind of the token that starts with a character, and how many characters belong to it after
that one. -/
def read (c : Char) (cs : List Char) : Kind × Nat :=
  if isSeparator c then (.blank, (cs.takeWhile isSeparator).length)
  else match c with
    | '(' => (.opening .round, 0)
    | '[' => (.opening .square, 0)
    | '\x7b' => (.opening .curly, 0)
    | ')' => (.closing .round, 0)
    | ']' => (.closing .square, 0)
    | '\x7d' => (.closing .curly, 0)
    | ';' => (.semicolon, 0)
    | '"' => (.plain, stringLength '"' 0 cs)
    | '\'' => (.plain, stringLength '\'' 0 cs)
    | '/' => match cs with
      | '*' :: rest => (.blank, commentLength rest + 1)
      | _ => (.plain, 0)
    | '#' =>
      if startsName cs || startsDigit cs || cs.head? == some '-' then (.plain, nameLength 0 cs)
      else (.plain, 0)
    | '@' =>
      if startsName cs then
        let n := nameLength 0 cs
        (.atKeyword (decodeName (cs.take n)), n)
      else (.plain, 0)
    | '<' => if ['!', '-', '-'].isPrefixOf cs then (.plain, 3) else (.plain, 0)
    | c =>
      if startsNumber (c :: cs) then (.plain, numberLength (c :: cs) - 1)
      else if c == '-' && ['-', '>'].isPrefixOf cs then (.plain, 2)
      else if startsName (c :: cs) then
        let (kind, n) := readName (c :: cs)
        (kind, n - 1)
      else (.plain, 0)

/-- The tokens of a text, `skip` characters of which belong to a token already read. -/
def tokensFrom : Nat → List Char → List Token
  | _, [] => []
  | k + 1, _ :: cs => tokensFrom k cs
  | 0, c :: cs =>
    let (kind, n) := read c cs
    ⟨kind, c :: cs.take n⟩ :: tokensFrom n cs

end Token

/-- The tokens of a text. -/
def tokens (text : List Char) : List Token :=
  Token.tokensFrom 0 text

@[simp] theorem tokens_nil : tokens [] = [] := rfl

theorem Token.tokensFrom_eq_drop (n : Nat) (s : List Char) :
    Token.tokensFrom n s = Token.tokensFrom 0 (s.drop n) := by
  induction n generalizing s with
  | zero => simp
  | succ n ih =>
    cases s with
    | nil => simp [Token.tokensFrom]
    | cons c cs => simpa [Token.tokensFrom] using ih cs

/-- A text that is not empty starts with one token; the tokens of what follows it are the rest. -/
theorem tokens_cons (c : Char) (cs : List Char) :
    tokens (c :: cs) =
      ⟨(Token.read c cs).1, c :: cs.take (Token.read c cs).2⟩ ::
        tokens (cs.drop (Token.read c cs).2) := by
  simp only [tokens, Token.tokensFrom]
  rw [Token.tokensFrom_eq_drop]

theorem Token.flatMap_lexeme_tokensFrom (n : Nat) (s : List Char) :
    (Token.tokensFrom n s).flatMap Token.lexeme = s.drop n := by
  induction s generalizing n with
  | nil => simp [Token.tokensFrom]
  | cons c cs ih =>
    cases n with
    | zero => simp [Token.tokensFrom, ih]
    | succ n => simpa [Token.tokensFrom] using ih n

/-- The lexemes of a text concatenate to the text. -/
theorem flatMap_lexeme_tokens (text : List Char) :
    (tokens text).flatMap Token.lexeme = text := by
  rw [tokens, Token.flatMap_lexeme_tokensFrom, List.drop_zero]

theorem Token.lexeme_ne_nil_of_mem_tokensFrom {t : Token} {n : Nat} {s : List Char}
    (h : t ∈ Token.tokensFrom n s) : t.lexeme ≠ [] := by
  induction s generalizing n with
  | nil => simp [Token.tokensFrom] at h
  | cons c cs ih =>
    cases n with
    | zero =>
      simp only [Token.tokensFrom, List.mem_cons] at h
      rcases h with rfl | h
      · simp
      · exact ih h
    | succ n => exact ih (by simpa [Token.tokensFrom] using h)

/-- No lexeme is empty. -/
theorem lexeme_ne_nil_of_mem_tokens {t : Token} {text : List Char} (h : t ∈ tokens text) :
    t.lexeme ≠ [] :=
  Token.lexeme_ne_nil_of_mem_tokensFrom h

end StyleTree.Css
