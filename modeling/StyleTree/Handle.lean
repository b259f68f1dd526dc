/-!
# Handles

A node is addressed by the slot it occupies and the version of that slot.  A slot that is given up
and taken again has a new version, so an old handle never reaches the new node.
-/

namespace StyleTree

/-- The address of a node. -/
structure Handle where
  index : Nat
  version : Nat
deriving DecidableEq, Hashable, Repr, Inhabited

namespace Handle

/-- The handle that no tree ever gives out. -/
def null : Handle := ⟨4294967295, 1⟩

/-- The two numbers of a handle with the letter `v` between them. -/
def text (h : Handle) : String :=
  toString h.index ++ "v" ++ toString h.version

/-- A handle as it is shown in outlines and log events. -/
def shown (h : Handle) : String :=
  "NodeId(" ++ h.text ++ ")"

/-- A handle that may be absent, as `Some` or `None`. -/
def shownOption : Option Handle → String
  | none => "None"
  | some h => "Some(" ++ h.shown ++ ")"

end Handle

end StyleTree
