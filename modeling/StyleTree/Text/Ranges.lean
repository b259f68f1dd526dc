/-!
# Sets of characters given by ranges

A property of characters is a list of ranges of code points in ascending order, no two of which
overlap.  Membership stops at the first range that lies beyond the code point asked for.
-/

namespace StyleTree.Text

/-- Ranges of code points, both ends included. -/
abbrev Ranges : Type := List (Nat × Nat)

/-- Whether a code point lies in one of the ranges, which must ascend. -/
def Ranges.covers : Ranges → Nat → Bool
  | [], _ => false
  | (first, last) :: rest, n =>
    if n < first then false
    else if n ≤ last then true
    else Ranges.covers rest n

end StyleTree.Text
