import StyleTree.Text.WordChar

/-!
# Vendors

A name such as `-webkit-keyframes` carries a vendor: the word between two hyphens at its start.
-/

namespace StyleTree

open StyleTree.Text

/-- The word between two hyphens that a text starts with. -/
def vendorIn : List Char → Option (List Char)
  | '-' :: rest =>
    match rest.span isWordChar with
    | (c :: word, '-' :: _) => some (c :: word)
    | _ => none
  | _ => none

/-- The vendor that a name carries. -/
def vendorOfName (name : String) : Option String :=
  (vendorIn name.toList).map String.ofList

end StyleTree
