/-!
# Phases

A handler runs on a node either before anything below the node is visited, or after everything below
it has been.  The first happens to documents only.
-/

namespace StyleTree

/-- When a handler runs. -/
inductive Phase where
  | before
  | after
deriving DecidableEq, Repr, Inhabited

namespace Phase

/-- The word for a phase. -/
def word : Phase → String
  | before => "Before"
  | after => "After"

/-- Both phases, the earlier first. -/
def all : List Phase := [before, after]

end Phase

end StyleTree
