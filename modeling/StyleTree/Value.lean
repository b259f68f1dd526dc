import StyleTree.Decimal.Shortest
import StyleTree.Text.Quoted

/-!
# Values of data files

A configuration and a support matrix arrive as values of a data file: scalars, lists and tables.
Decoding them into the types of this library may fail, and says why.
-/

namespace StyleTree

/-- A value of a data file. -/
inductive Value where
  | null
  | boolean (b : Bool)
  | integer (n : Int)
  | float (f : Float)
  | text (s : String)
  /-- A date, a time or both. -/
  | moment
  | list (items : List Value)
  | table (entries : List (String × Value))
deriving Inhabited

/-- Why a value could not be decoded. -/
inductive DecodeFault where
  /-- An entry that is neither a number nor a flag. -/
  | badEntry
  /-- Something else where a table is needed. -/
  | notTable (found : Value)
deriving Inhabited

namespace Value

/-- The sort of a value, with its content if it is a scalar. -/
def described : Value → String
  | null => "null"
  | boolean b => "boolean `" ++ (if b then "true" else "false") ++ "`"
  | integer n => "integer `" ++ toString n ++ "`"
  | float f => "floating point `" ++ (Decimal.shortest f).written ++ "`"
  | text s => "string " ++ Text.quoted s
  | moment => "map"
  | list _ => "sequence"
  | table _ => "map"

end Value

/-- The wording of a decode fault. -/
def DecodeFault.message : DecodeFault → String
  | badEntry => "data did not match any variant of untagged enum RawEntry"
  | notTable found => "invalid type: " ++ found.described ++ ", expected a map"

end StyleTree
