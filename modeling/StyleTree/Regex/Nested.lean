/-!
# Nesting

How deep an expression is nested is counted while it is read, because an expression does not keep
the parentheses and brackets that it was spelled with.  A character has depth zero.  A group, a
repetition and a pair of brackets are one deeper than what they hold.  Parts that are joined, as the
factors of a sequence are, are one deeper than the deepest of them if there are at least two; a
single part is nothing but itself.
-/

namespace StyleTree.Regex

/-- A part of an expression and how deep it is nested. -/
structure Nested (α : Type) where
  value : α
  depth : Nat
deriving Repr, Inhabited

namespace Nested

variable {α β : Type}

/-- A part that holds no other. -/
def leaf (value : α) : Nested α := ⟨value, 0⟩

/-- What is made of one part at the same depth. -/
def map (f : α → β) (part : Nested α) : Nested β := ⟨f part.value, part.depth⟩

/-- What is made of one part, a level deeper. -/
def wrap (f : α → β) (part : Nested α) : Nested β := ⟨f part.value, part.depth + 1⟩

/-- What is made of two parts, a level deeper than both. -/
def combine (f : α → α → α) (first second : Nested α) : Nested α :=
  ⟨f first.value second.value, max first.depth second.depth + 1⟩

/-- The depth of the deepest of several parts. -/
def deepest (parts : List (Nested α)) : Nat := (parts.map depth).foldl max 0

/-- What is made of several parts, a level deeper unless there are fewer than two. -/
def join (f : List α → β) (parts : List (Nested α)) : Nested β :=
  ⟨f (parts.map value), deepest parts + if parts.length < 2 then 0 else 1⟩

@[simp] theorem depth_join_nil (f : List α → β) : (join f []).depth = 0 := rfl

@[simp] theorem depth_join_singleton (f : List α → β) (part : Nested α) :
    (join f [part]).depth = part.depth := by
  simp [join, deepest]

end Nested

end StyleTree.Regex
