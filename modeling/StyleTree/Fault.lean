import StyleTree.Kind
import StyleTree.Text.Position

/-!
# Faults

Why an operation failed.  A fault is a cause, not a message: the ways in which a text can be
malformed and the three ways in which it can describe the wrong node are constructors, and
`Fault.message` is the only place that words them.  A handler may fail for a reason of its own; such
a reason is a text of its own choosing, placed by the same two constructors `parse` and `create`.

Whoever reads what is inside a block checks afterwards that nothing of it is left over.  That check
has a cause of its own, which no text brings about.
-/

namespace StyleTree

open StyleTree.Text

/-- Why a text is not a stylesheet. -/
inductive ParseCause where
  /-- A closing brace with no block to close. -/
  | strayBrace
  /-- An item that is neither an at-rule nor followed by a block and has no colon. -/
  | missingColon (text : String)
  /-- A token that is left over where a block or bracket should have been read to its end. -/
  | leftover (token : String)
  /-- A reason stated by a client. -/
  | stated (reason : String)
deriving DecidableEq, Repr, Inhabited

/-- The wording of a parse cause. -/
def ParseCause.message : ParseCause → String
  | strayBrace => "unexpected '\x7d'"
  | missingColon text => "expected ':' in declaration '" ++ text ++ "'"
  | leftover token => "UnexpectedToken(" ++ token ++ ")"
  | stated reason => reason

/-- Why a text does not describe the node asked for. -/
inductive CreateCause where
  /-- The text describes nothing. -/
  | noNode
  /-- The text describes a node of another kind. -/
  | parsedAs (kind : Kind)
  /-- The text of a child describes nothing. -/
  | noChild (text : String)
  /-- A reason stated by a client. -/
  | stated (reason : String)
deriving DecidableEq, Repr, Inhabited

/-- The wording of a create cause. -/
def CreateCause.message : CreateCause → String
  | noNode => "text contains no node"
  | parsedAs kind => "text parsed as " ++ kind.word
  | noChild text => "no child node in '" ++ text ++ "'"
  | stated reason => reason

/-- Why a file could not be read as text. -/
inductive ReadCause where
  | notFound
  | isDirectory
  /-- The file is not UTF-8. -/
  | notText
deriving DecidableEq, Repr, Inhabited

/-- Why an operation failed. -/
inductive Fault where
  /-- A handle whose node has been freed, or that never had one. -/
  | invalidNode
  /-- A node placed below itself. -/
  | circularParentage
  | parse (cause : ParseCause) (position : Position)
  | create (kind : Kind) (cause : CreateCause)
  | read (cause : ReadCause)
  /-- A configuration that could not be decoded. -/
  | config
  /-- A walk that used up the steps it was given. -/
  | unfinished
deriving DecidableEq, Repr, Inhabited

/-- The text that a fault is reported with; a fault of the file system, of a configuration or of a
step bound is reported by its kind alone. -/
def Fault.message? : Fault → Option String
  | invalidNode => some "Invalid or freed node handle"
  | circularParentage => some "Cannot add a node as a child of itself or of its descendants"
  | parse cause position =>
    some ("Parse error at line " ++ toString position.line ++ ", column " ++
      toString position.column ++ ": " ++ cause.message)
  | create kind cause =>
    some ("Cannot create " ++ kind.word ++ " node from text: " ++ cause.message)
  | read _ => none
  | config => none
  | unfinished => none

end StyleTree
