import StyleTree.Support.Basic
import StyleTree.Value

/-!
# Decoding support matrices and native maps

Both are written as a table from browsers to entries.  An entry is a version or a flag: `false`
takes the browser out, or says that it never supports the feature; `true` stands for every version.
-/

namespace StyleTree

/-- An entry as it is written. -/
inductive Entry where
  | version (f : Float)
  | flag (b : Bool)
deriving Inhabited

/-- The entry that a value spells. -/
def Entry.ofValue : Value → Except DecodeFault Entry
  | .float f => .ok (.version f)
  | .integer n => .ok (.version (Decimal.floatOfInt n))
  | .boolean b => .ok (.flag b)
  | _ => .error .badEntry

/-- The target that an entry stands for. -/
def Entry.target : Entry → Target
  | version f => .since f
  | flag false => .excluded
  | flag true => .since 0

/-- The native support that an entry stands for. -/
def Entry.native : Entry → Native
  | version f => .since f
  | flag false => .never
  | flag true => .since 0

/-- The entries of a table of browsers. -/
def Entry.table : Value → Except DecodeFault (List (String × Entry))
  | .table entries =>
    entries.mapM fun (browser, value) => return (browser, ← Entry.ofValue value)
  | .moment => .error .badEntry
  | found => .error (.notTable found)

/-- The support matrix that a value spells. -/
def Targets.ofValue (v : Value) : Except DecodeFault Targets := do
  return (← Entry.table v).foldl (fun m (browser, e) => m.set browser e.target) empty

/-- The native map that a value spells. -/
def NativeMap.ofValue (v : Value) : Except DecodeFault NativeMap := do
  return (← Entry.table v).foldl (fun m (browser, e) => m.set browser e.native) empty

/-- The rows of a support matrix: the version of each browser, none if it is excluded. -/
def Targets.rows (m : Targets) : List (String × Option Float) :=
  m.entries.toList.map fun (browser, target) =>
    (browser, match target with | .since v => some v | .excluded => none)

/-- The rows of a native map: the version of each browser, none if there never is one. -/
def NativeMap.rows (m : NativeMap) : List (String × Option Float) :=
  m.entries.toList.map fun (browser, native) =>
    (browser, match native with | .since v => some v | .never => none)

end StyleTree
