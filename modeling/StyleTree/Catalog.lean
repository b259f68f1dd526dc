import StyleTree.Plugin
import StyleTree.Tree.Search

/-!
# The catalog

The plugins that come with the program.  Each puts a copy with a vendor's name before the standard
form of an at-rule or a declaration, unless there is one already beside it, and is gated by the
versions in which browsers came to understand the standard form.

For an at-rule "already there" means the same prelude; for a declaration the name alone decides.
-/

namespace StyleTree.Catalog

variable [Data] {ι : Type}

/-- A copy of an at-rule with a text before its name put before the at-rule, unless its parent has
one with the same prelude. -/
def coverAtRule (affix : String) (id : Handle) : Edit Unit := do
  let node ← Edit.node id
  match node.parent with
  | none => pure ()
  | some parent =>
    let prefixed := affix ++ node.name.getD ""
    let existing : Query :=
      ⟨.ofKind .atRule, .ofText prefixed, .ofText (node.value.getD ""), .any⟩
    if (← Action.get).hasChild parent existing then
      Action.report (.alreadyPrefixed id prefixed)
    else
      let _ ← Edit.copyPrefixed id affix

/-- A copy of a declaration under another name put before the declaration, unless its parent has a
declaration of that name. -/
def coverDeclaration (prefixed : String) (id : Handle) : Edit Unit := do
  match (← Edit.node id).parent with
  | none => pure ()
  | some parent =>
    let existing : Query := ⟨.ofKind .declaration, .ofText prefixed, .any, .any⟩
    if (← Action.get).hasChild parent existing then pure ()
    else
      match ← Edit.copyBefore id with
      | some clone => Edit.setName clone prefixed
      | none => pure ()

/-- The plugin that copies the at-rules of a name. -/
def atRulePlugin (name affix : String) (native : NativeMap) : Plugin ι :=
  (Plugin.new ("@" ++ affix ++ name) (some native)).register .atRule .after (some name)
    fun id => (coverAtRule affix id).onWorkspace

/-- The plugin that copies the declarations of a property. -/
def declarationPlugin (property affix : String) (native : NativeMap) : Plugin ι :=
  (Plugin.new (affix ++ property) (some native)).register .declaration .after (some property)
    fun id => (coverDeclaration (affix ++ property) id).onWorkspace

/-- Since when the at-rule `keyframes` needs no `-webkit-`. -/
def webkitKeyframes : NativeMap :=
  (((NativeMap.empty.since "chrome" 43).since "safari" 9).since "opera" 30).since "android" 4.4

/-- Since when the at-rule `keyframes` needs no `-moz-`. -/
def mozKeyframes : NativeMap :=
  NativeMap.empty.since "firefox" 16

/-- Since when the property `transition` needs no `-webkit-`. -/
def webkitTransition : NativeMap :=
  ((NativeMap.empty.since "chrome" 26).since "safari" 6.1).since "android" 4.4

/-- Copies of the at-rule `keyframes` for two vendors. -/
def keyframes : PluginModule ι :=
  [atRulePlugin "keyframes" "-webkit-" webkitKeyframes,
    atRulePlugin "keyframes" "-moz-" mozKeyframes]

/-- Copies of the property `transition` for one vendor. -/
def transition : PluginModule ι :=
  [declarationPlugin "transition" "-webkit-" webkitTransition]

/-- Every module of the catalog. -/
def all : List (PluginModule ι) :=
  [keyframes, transition]

end StyleTree.Catalog
