import StyleTree.Handle

/-!
# Arenas

An arena stores values in numbered slots and gives out handles to them.  Each slot has a version,
which is odd while the slot is taken and even while it is vacant: it goes up by one when the slot is
given up and again when it is taken.  A vacant slot that has been in use is taken again before a new
one is made, the one given up last first.

Slot zero is never taken, so that no handle has the index zero.

Every operation is described by what `get?` answers after it.
-/

namespace StyleTree

/-- A slot: its version, and the value that it holds if it is taken. -/
structure Slot (α : Type) where
  version : Nat
  content : Option α

/-- Values in numbered slots. -/
structure Arena (α : Type) where
  slots : Array (Slot α)
  /-- The vacant slots that have been in use, the one to be taken next first. -/
  vacant : List Nat

namespace Arena

variable {α : Type}

/-- No values. -/
def empty : Arena α := ⟨#[⟨0, none⟩], []⟩

instance : Inhabited (Arena α) := ⟨empty⟩

/-- The value at a handle, if the slot is still in the handle's version. -/
def get? (a : Arena α) (h : Handle) : Option α :=
  match a.slots[h.index]? with
  | some slot => if slot.version = h.version then slot.content else none
  | none => none

/-- Whether a handle has a value. -/
def contains (a : Arena α) (h : Handle) : Bool :=
  (a.get? h).isSome

/-- The handle that the next value will get. -/
def next (a : Arena α) : Handle :=
  match a.vacant with
  | i :: _ => ⟨i, (a.slots[i]?.elim 0 Slot.version) + 1⟩
  | [] => ⟨a.slots.size, 1⟩

/-- The arena with one more value, at the handle `a.next`. -/
def insert (a : Arena α) (x : α) : Arena α :=
  match a.vacant with
  | i :: rest => ⟨a.slots.setIfInBounds i ⟨a.next.version, some x⟩, rest⟩
  | [] => ⟨a.slots.push ⟨a.next.version, some x⟩, []⟩

/-- The arena with the value at a handle changed; the same arena if there is none. -/
def modify (a : Arena α) (h : Handle) (f : α → α) : Arena α :=
  match a.get? h with
  | some x => { a with slots := a.slots.setIfInBounds h.index ⟨h.version, some (f x)⟩ }
  | none => a

/-- The arena without the value at a handle; the same arena if there is none. -/
def erase (a : Arena α) (h : Handle) : Arena α :=
  match a.get? h with
  | some _ =>
    ⟨a.slots.setIfInBounds h.index ⟨h.version + 1, none⟩, h.index :: a.vacant⟩
  | none => a

/-- The handle of a slot, if it is taken. -/
def handleAt? (a : Arena α) (i : Nat) : Option Handle :=
  match a.slots[i]? with
  | some ⟨version, some _⟩ => some ⟨i, version⟩
  | _ => none

/-- Every handle that has a value, by ascending index. -/
def handles (a : Arena α) : List Handle :=
  (List.range a.slots.size).filterMap a.handleAt?

/-- The number of values. -/
def size (a : Arena α) : Nat :=
  a.handles.length

/-- The arena without the values whose handles do not pass a test, given up by ascending index. -/
def retain (a : Arena α) (keep : Handle → Bool) : Arena α :=
  (a.handles.filter (fun h => !keep h)).foldl erase a

@[simp] theorem get?_empty (h : Handle) : (empty : Arena α).get? h = none := by
  obtain ⟨i, v⟩ := h
  cases i <;> simp [get?, empty]

theorem contains_iff {a : Arena α} {h : Handle} : a.contains h = true ↔ ∃ x, a.get? h = some x := by
  simp [contains, Option.isSome_iff_exists]

end Arena

end StyleTree
