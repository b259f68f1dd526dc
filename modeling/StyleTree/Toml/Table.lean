import StyleTree.Value

/-!
# Tables of a configuration

A table comes to be in one of three ways, and this decides what may still be added to it.

* `stated`: it has a header of its own.  It gets its entries below that header, and a key with
  points does not reach into it from outside.
* `implied`: it lies on the way to another table's header.  It may still get a header.
* `dotted`: it lies on the way to an entry whose key has points.  Further such entries may follow,
  but no header.

A value, be it an inline table, is closed.  An array of tables is entered at its last table.
-/

namespace StyleTree.Toml

/-- How a table came to be. -/
inductive Origin where
  | stated
  | implied
  | dotted
deriving DecidableEq, Repr, Inhabited

/-- What stands under a key. -/
inductive Item where
  | value (v : Value)
  | table (origin : Origin) (entries : List (String × Item))
  /-- An array of tables, the last table first. -/
  | tables (elements : List (List (String × Item)))

instance : Inhabited Item := ⟨.value .null⟩

/-- The entries of a table. -/
abbrev Entries : Type := List (String × Item)

namespace Item

mutual

/-- The value that an item amounts to. -/
def toValue : Item → Value
  | value v => v
  | table _ entries => .table (toValues entries)
  | tables elements => .list (toRows elements).reverse

/-- The values of the entries of a table. -/
def toValues : List (String × Item) → List (String × Value)
  | [] => []
  | (key, item) :: rest => (key, toValue item) :: toValues rest

/-- The values of several tables. -/
def toRows : List (List (String × Item)) → List Value
  | [] => []
  | entries :: rest => .table (toValues entries) :: toRows rest

end

end Item

namespace Entries

/-- The entries with an item under a key, in the place of an earlier one or at the end. -/
def put (entries : Entries) (key : String) (item : Item) : Entries :=
  match entries with
  | [] => [(key, item)]
  | (k, i) :: rest => if k = key then (key, item) :: rest else (k, i) :: put rest key item

/-- A change of the table at the end of a path.  Tables that are not there are made on the way; if
the path is one of a key with points, they are `dotted`, and a table with a header of its own is not
entered. -/
def change (dotted : Bool) (f : Origin → Entries → Option Entries) :
    List String → Origin → Entries → Option Entries
  | [], origin, entries => f origin entries
  | key :: path, _, entries =>
    match entries.lookup key with
    | none => do
      let origin := if dotted then Origin.dotted else Origin.implied
      return entries.put key (.table origin (← change dotted f path origin []))
    | some (.table origin inner) => do
      guard !(dotted && origin = .stated)
      return entries.put key (.table origin (← change dotted f path origin inner))
    | some (.tables (last :: earlier)) => do
      return entries.put key (.tables ((← change dotted f path .stated last) :: earlier))
    | some (.tables []) => none
    | some (.value _) => none

/-- A new entry under a key that has none. -/
def add (entries : Entries) (key : String) (item : Item) : Option Entries := do
  guard (entries.lookup key).isNone
  return entries.put key item

/-- A new entry whose key may have points.  The table that it ends in must be one that only keys
with points made. -/
def assign (entries : Entries) (path : List String) (key : String) (value : Value) :
    Option Entries :=
  if path.isEmpty then entries.add key (.value value)
  else
    entries.change true (fun origin inner => do
      guard (origin = .dotted)
      inner.add key (.value value)) path .stated

/-- A header for a table. -/
def stateTable (key : String) (entries : Entries) : Option Entries :=
  match entries.lookup key with
  | none => some (entries.put key (.table .stated []))
  | some (.table .implied inner) => some (entries.put key (.table .stated inner))
  | some _ => none

/-- A header for one more table of an array of tables. -/
def stateElement (key : String) (entries : Entries) : Option Entries :=
  match entries.lookup key with
  | none => some (entries.put key (.tables [[]]))
  | some (.tables elements) => some (entries.put key (.tables ([] :: elements)))
  | some _ => none

/-- The entries of an inline table. -/
def ofAssignments (assignments : List (List String × Value)) : Option Entries :=
  assignments.foldlM (fun entries (path, value) =>
    path.getLast?.bind fun key => entries.assign path.dropLast key value) []

end Entries

end StyleTree.Toml
