import StyleTree.Fault

/-!
# Files

What a path leads to, as far as reading a text from it goes.
-/

namespace StyleTree

/-- What is found at a path. -/
inductive File where
  | missing
  | directory
  | content (bytes : ByteArray)
deriving Inhabited

/-- The text of a file. -/
def File.text : File → Except Fault String
  | missing => .error (.read .notFound)
  | directory => .error (.read .isDirectory)
  | content bytes =>
    match String.fromUTF8? bytes with
    | some text => .ok text
    | none => .error (.read .notText)

end StyleTree
