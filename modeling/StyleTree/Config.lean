import StyleTree.Action
import StyleTree.File
import StyleTree.Support.Decode
import StyleTree.Toml.Document

/-!
# Configurations

A configuration says which browsers to target and how to print the result.  Both may be left out:
then every fix applies, and lines are separated by line feeds.  What is not known is ignored.

The style has one setting.  It may be given by name in a table or, as the first item, in a list.
-/

namespace StyleTree

/-- How a stylesheet is to be fixed and printed. -/
structure Config where
  /-- The targeted browsers; every fix applies if there are none. -/
  support : Option Targets
  /-- The text between siblings. -/
  linebreak : String
deriving Inhabited

namespace Config

/-- The separator when none is given. -/
def defaultLinebreak : String := "\n"

/-- The configuration that says nothing. -/
def empty : Config := ⟨none, defaultLinebreak⟩

/-- The text that a value is, if it is one. -/
def text? : Value → Option String
  | .text s => some s
  | _ => none

/-- The separator that a style asks for.  A date has none of the settings of a style, and counts as
a table without them. -/
def linebreak? : Value → Option String
  | .table entries => ((entries.lookup "linebreak").map text?).getD (some defaultLinebreak)
  | .list items => (items.head?.map text?).getD (some defaultLinebreak)
  | .moment => some defaultLinebreak
  | _ => none

/-- The configuration of a table of settings. -/
def ofTable? (settings : List (String × Value)) : Option Config := do
  let support ← match settings.lookup "support" with
    | some v => some <$> (Targets.ofValue v).toOption
    | none => some none
  let linebreak ← ((settings.lookup "style").map linebreak?).getD (some defaultLinebreak)
  return ⟨support, linebreak⟩

/-- The configuration of a text. -/
def parse (text : String) : Except Fault Config :=
  match (Toml.parse? text).bind ofTable? with
  | some config => .ok config
  | none => .error .config

/-- The configuration in a file. -/
def load {σ : Type} (file : File) : Action σ Config := do
  let config ← Action.ofExcept (parse (← Action.ofExcept file.text))
  Action.report .loadedConfig
  return config

end Config

end StyleTree
