/-!
# Sets of characters

What a bracket expression of a regular expression stands for: ranges of characters, and the four
ways to make a set of two or one.  A set is kept as it was built and asked for one character at a
time, so membership is a Boolean formula in the membership of the ranges.
-/

namespace StyleTree.Regex

/-- A set of characters. -/
inductive Chars where
  | empty
  /-- The characters from one to another, both included. -/
  | range (low high : Char)
  | union (a b : Chars)
  | inter (a b : Chars)
  | diff (a b : Chars)
  /-- What is in exactly one of two sets. -/
  | symmDiff (a b : Chars)
  | compl (a : Chars)
deriving DecidableEq, Repr, Inhabited

namespace Chars

/-- Whether a character is in a set. -/
def contains : Chars → Char → Bool
  | empty, _ => false
  | range low high, c => low ≤ c && c ≤ high
  | union a b, c => a.contains c || b.contains c
  | inter a b, c => a.contains c && b.contains c
  | diff a b, c => a.contains c && !b.contains c
  | symmDiff a b, c => a.contains c != b.contains c
  | compl a, c => !a.contains c

/-- One character. -/
def single (c : Char) : Chars := range c c

/-- What is in some set of several. -/
def unions (sets : List Chars) : Chars := sets.foldl union empty

/-- The characters of several ranges. -/
def ofRanges (ranges : List (Char × Char)) : Chars :=
  unions (ranges.map fun (low, high) => range low high)

@[simp] theorem contains_single (c d : Char) : (single c).contains d = decide (d = c) := by
  simp only [single, contains]
  by_cases h : d = c
  · subst h
    simp
  · have : ¬(c ≤ d ∧ d ≤ c) := fun ⟨h₁, h₂⟩ => h (Char.le_antisymm h₂ h₁)
    simpa [h] using this

end Chars

end StyleTree.Regex
