import StyleTree.Toml.Text
import StyleTree.Value

/-!
# Scalars of a configuration

* A whole number is decimal, with a sign perhaps and no idle zeros, or it is hexadecimal, octal or
  binary after `0x`, `0o` or `0b`, and then has no sign.  It has to fit into 64 bits with a sign.
* A number with a fraction, an exponent or both is a double.  One that is too large is refused if it
  is positive, and infinite if it is negative.
* Between two digits there may be an underscore.
* A date, a time of day or both have to be possible; which they are is not kept.
-/

namespace StyleTree.Toml

open Reader

/-! ## Numbers -/

/-- The digits that a text starts with, each after the first with an underscore before it perhaps,
and what comes after them. -/
def groupedFrom (p : Char → Bool) : List Char → List Char × List Char
  | [] => ([], [])
  | '_' :: c :: cs =>
    if p c then
      let (digits, rest) := groupedFrom p cs
      (c :: digits, rest)
    else ([], '_' :: c :: cs)
  | c :: cs =>
    if p c then
      let (digits, rest) := groupedFrom p cs
      (c :: digits, rest)
    else ([], c :: cs)

/-- Digits of a class, at least one, with underscores between them perhaps. -/
def grouped (p : Char → Bool) : Reader (List Char) := fun cs =>
  match cs with
  | c :: rest =>
    if p c then
      let (digits, rest) := groupedFrom p rest
      some (c :: digits, rest)
    else none
  | [] => none

/-- A sign, if there is one: whether it is negative. -/
def sign : Reader (Option Bool) :=
  optional ((do char '-'; return true) <|> (do char '+'; return false))

/-- The digits of a decimal number before its point: a zero alone, or digits that do not start with
one. -/
def wholeDigits : Reader (List Char) :=
  (do char '0'; return ['0']) <|> grouped Char.isDigit

/-- The digits of an exponent, with its sign. -/
def exponent : Reader Int := do
  char 'e' <|> char 'E'
  let negative := (← sign).getD false
  let n := Decimal.ofDigits (← grouped Char.isDigit)
  return if negative then -n else n

/-- A number with a fraction, an exponent or both. -/
def fractional : Reader Float := do
  let negative := (← sign).getD false
  let whole ← wholeDigits
  let fraction ← optional (do char '.'; grouped Char.isDigit)
  let power ← optional exponent
  guard (fraction.isSome || power.isSome)
  let places := fraction.getD []
  let value := (Decimal.mk negative (Decimal.ofDigits (whole ++ places))
    (power.getD 0 - places.length)).toFloat
  guard !(value == 1 / 0)
  return value

/-- One of the two numbers that have no digits, with its sign. -/
def wordedNumber : Reader Float := do
  let negative := (← sign).getD false
  let value : Float ← (do word "inf"; return 1 / 0) <|> (do word "nan"; return 0 / 0)
  return if negative then -value else value

/-- A whole number in another base than ten. -/
def basedInteger (mark : String) (base : Nat) : Reader Int := do
  word mark
  let digits ← grouped fun c => (Text.hexDigit? c).any (· < base)
  return digits.foldl (fun n c => n * base + (Text.hexDigit? c).getD 0) 0

/-- A whole number. -/
def integer : Reader Int := do
  let n ← basedInteger "0x" 16 <|> basedInteger "0o" 8 <|> basedInteger "0b" 2 <|> do
    let negative := (← sign).getD false
    let n := Decimal.ofDigits (← wholeDigits)
    return if negative then -n else n
  guard (-Int.pow 2 63 ≤ n ∧ n < Int.pow 2 63)
  return n

/-! ## Dates and times -/

/-- A number of so many digits, within bounds. -/
def field (width low high : Nat) : Reader Nat := do
  let n := Decimal.ofDigits (← exactly width Char.isDigit)
  guard (low ≤ n ∧ n ≤ high)
  return n

/-- Whether a year has a leap day. -/
def isLeapYear (year : Nat) : Bool :=
  year % 4 = 0 && (year % 100 ≠ 0 || year % 400 = 0)

/-- The number of days of a month. -/
def daysIn (year month : Nat) : Nat :=
  if month = 2 then (if isLeapYear year then 29 else 28)
  else if month = 4 ∨ month = 6 ∨ month = 9 ∨ month = 11 then 30
  else 31

/-- A day of the calendar. -/
def date : Reader Unit := do
  let year ← field 4 0 9999
  char '-'
  let month ← field 2 1 12
  char '-'
  let _ ← field 2 1 (daysIn year month)

/-- A time of day, in which a minute may have a leap second. -/
def time : Reader Unit := do
  let _ ← field 2 0 23
  char ':'
  let _ ← field 2 0 59
  char ':'
  let _ ← field 2 0 60
  let _ ← optional do
    char '.'
    guard !(← run Char.isDigit).isEmpty

/-- The distance from universal time. -/
def offset : Reader Unit :=
  char 'Z' <|> char 'z' <|> do
    char '+' <|> char '-'
    let _ ← field 2 0 23
    char ':'
    let _ ← field 2 0 59

/-- A date, a time of day, or a date with a time of day and an offset perhaps. -/
def moment : Reader Unit :=
  (do
    date
    let _ ← optional do
      char 'T' <|> char 't' <|> char ' '
      time
      let _ ← optional offset) <|>
    time

/-! ## Scalars -/

/-- A scalar. -/
def scalar : Reader Value :=
  Value.text <$> string <|>
    (do moment; return .moment) <|>
    Value.float <$> fractional <|>
    Value.float <$> wordedNumber <|>
    Value.integer <$> integer <|>
    (do word "true"; return .boolean true) <|>
    (do word "false"; return .boolean false)

end StyleTree.Toml
