import StyleTree.Handle
import StyleTree.Kind
import StyleTree.Phase

/-!
# Log events

What the program reports while it works.  An event is a fact with its data; how a fact is worded,
under which target it is filed and at which level are three functions on it, so a report is decided
in one place.  Events are written and never read back: no operation depends on them.
-/

namespace StyleTree

/-- A fact worth reporting. -/
inductive Event where
  | parsedCss (items : Nat)
  | parsedStylesheet
  | parsedTree (nodes : Nat)
  | createdNode (id : Handle) (kind : Kind)
  | addedNode (parent child : Handle) (position : Option Nat)
  | removedNode (id : Handle)
  | clonedNode (source clone : Handle)
  | addedVendorPrefix (id clone : Handle) (affix : String)
  | compactedTree (freed : Nat)
  | fixNotNeeded (plugin : String) (kind : Kind)
  | runningHandler (plugin : String) (id : Handle) (kind : Kind) (phase : Phase)
  | pruningNode (id : Handle) (vendor context : String)
  | finalizedNode (id : Handle)
  | traversalComplete (finalized : Nat)
  | alreadyPrefixed (id : Handle) (prefixed : String)
  | loadedConfig
deriving DecidableEq, Repr, Inhabited

namespace Event

/-- The level of an event. -/
def level : Event → String
  | parsedStylesheet | parsedTree _ | compactedTree _ | fixNotNeeded _ _ | pruningNode _ _ _
  | traversalComplete _ | loadedConfig => "DEBUG"
  | parsedCss _ | createdNode _ _ | addedNode _ _ _ | removedNode _ | clonedNode _ _
  | addedVendorPrefix _ _ _ | runningHandler _ _ _ _ | finalizedNode _
  | alreadyPrefixed _ _ => "TRACE"

/-- The target that an event is filed under. -/
def target : Event → String
  | parsedCss _ | parsedStylesheet => "vendorize_css::parser"
  | alreadyPrefixed _ _ => "vendorize_css::plugins"
  | parsedTree _ | createdNode _ _ | addedNode _ _ _ | removedNode _ | clonedNode _ _
  | addedVendorPrefix _ _ _ | compactedTree _ => "vendorize_core::tree"
  | fixNotNeeded _ _ | runningHandler _ _ _ _ => "vendorize_core::plugin"
  | pruningNode _ _ _ | finalizedNode _ | traversalComplete _ => "vendorize_core::traverse"
  | loadedConfig => "vendorize_core::config"

/-- The sentence of an event. -/
def message : Event → String
  | parsedCss _ => "parsed css"
  | parsedStylesheet => "parsed stylesheet"
  | parsedTree _ => "parsed tree"
  | createdNode _ _ => "created node"
  | addedNode _ _ _ => "added node"
  | removedNode _ => "removed node"
  | clonedNode _ _ => "cloned node"
  | addedVendorPrefix _ _ _ => "added vendor prefix"
  | compactedTree _ => "compacted tree"
  | fixNotNeeded _ _ => "fix not needed for targeted browsers"
  | runningHandler _ _ _ _ => "running handler"
  | pruningNode _ _ _ => "pruning node of foreign vendor"
  | finalizedNode _ => "finalized node"
  | traversalComplete _ => "traversal complete"
  | alreadyPrefixed _ _ => "already prefixed"
  | loadedConfig => "loaded config"

/-- A number that may be absent, as `Some` or `None`. -/
def shownPosition : Option Nat → String
  | none => "None"
  | some n => "Some(" ++ toString n ++ ")"

/-- The data of an event, field by field.  The path of a file is not among them. -/
def fields : Event → List (String × String)
  | parsedCss items => [("items", toString items)]
  | parsedStylesheet => []
  | parsedTree nodes => [("nodes", toString nodes)]
  | createdNode id kind => [("id", id.shown), ("kind", kind.word)]
  | addedNode parent child position =>
    [("parent", parent.shown), ("child", child.shown), ("position", shownPosition position)]
  | removedNode id => [("id", id.shown)]
  | clonedNode source clone => [("source", source.shown), ("clone", clone.shown)]
  | addedVendorPrefix id clone affix =>
    [("id", id.shown), ("clone", clone.shown), ("prefix", affix)]
  | compactedTree freed => [("freed", toString freed)]
  | fixNotNeeded plugin kind => [("plugin", plugin), ("kind", kind.word)]
  | runningHandler plugin id kind phase =>
    [("plugin", plugin), ("id", id.shown), ("kind", kind.word), ("phase", phase.word)]
  | pruningNode id vendor context =>
    [("id", id.shown), ("vendor", vendor), ("context", context)]
  | finalizedNode id => [("id", id.shown)]
  | traversalComplete finalized => [("finalized", toString finalized)]
  | alreadyPrefixed id prefixed => [("id", id.shown), ("prefixed", prefixed)]
  | loadedConfig => []

end Event

end StyleTree
