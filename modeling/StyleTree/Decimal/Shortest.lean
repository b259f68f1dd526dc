import StyleTree.Decimal.Basic

/-!
# The shortest decimal of a double

The text of a double has the fewest digits that read back as the same double, and among those the
digits nearest to it.  A double is a whole number times a power of two, and the reals that round to
it form an interval around it whose ends belong to it if that whole number is even.  For one digit,
then two, and so on, the two neighbours of the double on the grid of so many digits are tried; the
first grid with a neighbour inside the interval has the answer.  All of it is exact arithmetic on
whole numbers.
-/

namespace StyleTree.Decimal

/-- A positive double as `mantissa · 2 ^ exponent`. -/
structure Binary where
  mantissa : Nat
  exponent : Int
deriving DecidableEq, Repr, Inhabited

/-- The parts of a finite double without its sign. -/
def Binary.ofBits (bits : Nat) : Binary :=
  let fraction : Nat := bits % Nat.pow 2 52
  let biased : Nat := bits / Nat.pow 2 52 % Nat.pow 2 11
  if biased = 0 then ⟨fraction, -1074⟩ else ⟨Nat.pow 2 52 + fraction, (biased : Int) - 1075⟩

/-- A fraction of whole numbers. -/
structure Ratio where
  num : Nat
  den : Nat
deriving DecidableEq, Repr, Inhabited

/-- The fraction `n · 2 ^ twos · 10 ^ tens`. -/
def Ratio.scaled (n : Nat) (twos tens : Int) : Ratio :=
  ⟨n * Nat.pow 2 twos.toNat * Nat.pow 10 tens.toNat,
    Nat.pow 2 (-twos).toNat * Nat.pow 10 (-tens).toNat⟩

/-- Whether one fraction is less than another. -/
def Ratio.less (a b : Ratio) : Bool :=
  a.num * b.den < b.num * a.den

/-- The distance between two fractions. -/
def Ratio.distance (a b : Ratio) : Ratio :=
  ⟨max (a.num * b.den) (b.num * a.den) - min (a.num * b.den) (b.num * a.den), a.den * b.den⟩

/-- Whether a whole number of tens rounds to the double: the interval reaches half-way to the
neighbours, the lower of which is nearer below a power of two. -/
def Binary.rounds (b : Binary) (n : Nat) (tens : Int) : Bool :=
  let x := Ratio.scaled n 0 tens
  let low :=
    if b.mantissa = Nat.pow 2 52 && b.exponent > -1074 then
      Ratio.scaled (4 * b.mantissa - 1) (b.exponent - 2) 0
    else Ratio.scaled (2 * b.mantissa - 1) (b.exponent - 1) 0
  let high := Ratio.scaled (2 * b.mantissa + 1) (b.exponent - 1) 0
  if b.mantissa % 2 = 0 then !x.less low && !high.less x else low.less x && x.less high

/-- The nearer of the two neighbours of the double on a grid of tens, if one rounds to it. -/
def Binary.onGrid? (b : Binary) (tens : Int) : Option Nat :=
  let value := Ratio.scaled b.mantissa b.exponent 0
  let scaled := Ratio.scaled b.mantissa b.exponent (-tens)
  let floor := scaled.num / scaled.den
  match b.rounds floor tens, b.rounds (floor + 1) tens with
  | true, true =>
    let below := value.distance (Ratio.scaled floor 0 tens)
    let above := value.distance (Ratio.scaled (floor + 1) 0 tens)
    some (if above.less below || (!below.less above && floor % 2 = 1) then floor + 1 else floor)
  | true, false => some floor
  | false, true => some (floor + 1)
  | false, false => none

/-- The exponent of ten of the first digit of a double that is not zero. -/
def Binary.leading (b : Binary) : Int :=
  let value := Ratio.scaled b.mantissa b.exponent 0
  if value.den ≤ value.num then (width (value.num / value.den) : Int) - 1
  else -(width ((value.den + value.num - 1) / value.num - 1) : Int)

/-- The first hit on the grids of `count` digits and more. -/
def Binary.searchFrom (b : Binary) : Nat → Nat → Nat × Int
  | 0, _ => (b.mantissa, 0)
  | left + 1, count =>
    let tens := b.leading - (count - 1 : Int)
    match b.onGrid? tens with
    | some n => (n, tens)
    | none => b.searchFrom left (count + 1)

/-- A whole number without its trailing zeros, and how many there were. -/
def dropZeros : Nat → Nat → Int → Nat × Int
  | 0, n, e => (n, e)
  | fuel + 1, n, e => if n % 10 = 0 && n ≠ 0 then dropZeros fuel (n / 10) (e + 1) else (n, e)

/-- The fewest digits that read back as a finite double. -/
def shortest (f : Float) : Decimal :=
  let bits := f.toBits.toNat
  let negative := bits / Nat.pow 2 63 = 1
  let b := Binary.ofBits bits
  if b.mantissa = 0 then ⟨negative, 0, 0⟩
  else
    let (n, tens) := b.searchFrom 17 1
    let (n, tens) := dropZeros 20 n tens
    ⟨negative, n, tens⟩

/-- An exponent with its sign. -/
def writtenExponent (e : Int) : String :=
  "e" ++ (if e < 0 then "-" else "+") ++ toString e.natAbs

/-- A decimal in positional writing if its point stands within sixteen digits before or five places
after the first digit, and with an exponent otherwise.  There is always a point or an exponent. -/
def written (d : Decimal) : String :=
  let sign := if d.negative then "-" else ""
  let digits := Nat.toDigits 10 d.digits
  let count := digits.length
  let point : Int := count + d.exponent
  let text (ds : List Char) : String := String.ofList ds
  let zeros (n : Int) : List Char := List.replicate n.toNat '0'
  sign ++
    if d.digits = 0 then "0.0"
    else if 0 ≤ d.exponent && point ≤ 16 then text (digits ++ zeros d.exponent) ++ ".0"
    else if 0 < point && point ≤ 16 then
      text (digits.take point.toNat) ++ "." ++ text (digits.drop point.toNat)
    else if -5 < point && point ≤ 0 then "0." ++ text (zeros (-point) ++ digits)
    else if count = 1 then text digits ++ writtenExponent (point - 1)
    else text (digits.take 1) ++ "." ++ text (digits.drop 1) ++ writtenExponent (point - 1)

end StyleTree.Decimal
