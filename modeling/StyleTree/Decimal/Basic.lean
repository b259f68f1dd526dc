/-!
# Decimal numbers

A decimal number is a sign, a whole number and a power of ten.  `toFloat` is the double nearest to
it, a tie going to the even neighbour.  A number too large for that is infinite and one too small is
zero, and the sign is kept also on zero.
-/

namespace StyleTree

/-- The number `± digits · 10 ^ exponent`. -/
structure Decimal where
  negative : Bool
  digits : Nat
  exponent : Int
deriving DecidableEq, Repr, Inhabited

namespace Decimal

/-- The whole number that a list of decimal digits spells. -/
def ofDigits (ds : List Char) : Nat :=
  ds.foldl (fun n d => n * 10 + (d.toNat - '0'.toNat)) 0

/-- The number of decimal digits of a whole number. -/
def width (n : Nat) : Nat :=
  (Nat.toDigits 10 n).length

/-- The nearest double.  Numbers beyond the range of doubles by a wide margin are not computed. -/
def toFloat (d : Decimal) : Float :=
  let magnitude : Int := width d.digits + d.exponent
  let f : Float :=
    if d.digits = 0 || magnitude < -400 then 0
    else if magnitude > 400 then 1 / 0
    else Float.ofScientific d.digits (d.exponent < 0) d.exponent.natAbs
  if d.negative then -f else f

/-- The nearest double of a whole number. -/
def floatOfInt (n : Int) : Float :=
  toFloat ⟨n < 0, n.natAbs, 0⟩

end Decimal

end StyleTree
