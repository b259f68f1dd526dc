import Std.Data.TreeMap

/-!
# Support matrices and the gate

A support matrix says which browsers a stylesheet is for: from which version on, or not at all.  A
native map says when browsers came to support a feature without help: from which version on, or
never.  A plugin with a native map is needed as long as some browser that is targeted lacks the
feature.  The gate decides this.

* A browser that never supports the feature opens the gate, unless the matrix excludes it.
* A browser that supports it from a version on opens the gate if it is targeted below that version.
* Without a matrix or without a map the gate is open.

Both are maps by name, in the order of the code points of the names; a later entry replaces an
earlier one.
-/

namespace StyleTree

/-- How a browser is targeted. -/
inductive Target where
  | excluded
  | since (version : Float)
deriving Inhabited

/-- When a browser supports a feature. -/
inductive Native where
  | never
  | since (version : Float)
deriving Inhabited

/-- The targeted browsers. -/
structure Targets where
  entries : Std.TreeMap String Target
deriving Inhabited

namespace Targets

/-- No browser mentioned. -/
def empty : Targets := ⟨{}⟩

/-- The matrix with an entry for a browser. -/
def set (m : Targets) (browser : String) (target : Target) : Targets :=
  ⟨m.entries.insert browser target⟩

/-- The matrix with a browser targeted from a version on. -/
def target (m : Targets) (browser : String) (version : Float) : Targets :=
  m.set browser (.since version)

/-- The matrix with a browser not targeted. -/
def exclude (m : Targets) (browser : String) : Targets :=
  m.set browser .excluded

/-- The entry of a browser. -/
def get? (m : Targets) (browser : String) : Option Target :=
  m.entries[browser]?

end Targets

/-- Since when browsers support a feature. -/
structure NativeMap where
  entries : Std.TreeMap String Native
deriving Inhabited

namespace NativeMap

/-- No browser mentioned. -/
def empty : NativeMap := ⟨{}⟩

/-- The map with an entry for a browser. -/
def set (m : NativeMap) (browser : String) (native : Native) : NativeMap :=
  ⟨m.entries.insert browser native⟩

/-- The map with a browser that supports the feature from a version on. -/
def since (m : NativeMap) (browser : String) (version : Float) : NativeMap :=
  m.set browser (.since version)

/-- The map with a browser that never supports the feature. -/
def never (m : NativeMap) (browser : String) : NativeMap :=
  m.set browser .never

/-- The entry of a browser. -/
def get? (m : NativeMap) (browser : String) : Option Native :=
  m.entries[browser]?

end NativeMap

/-- Whether a browser still lacks a feature, given how it is targeted and when it supports it. -/
def lacks (target : Option Target) (native : Native) : Bool :=
  match target, native with
  | some .excluded, _ => false
  | _, .never => true
  | some (.since minimum), .since version => minimum < version
  | none, .since _ => false

/-- Whether a plugin is needed. -/
def gateOpen (support : Option Targets) (native : Option NativeMap) : Bool :=
  match support, native with
  | some s, some d => d.entries.toList.any fun (browser, n) => lacks (s.get? browser) n
  | _, _ => true

@[simp] theorem gateOpen_none_left (native : Option NativeMap) : gateOpen none native = true := rfl

@[simp] theorem gateOpen_none_right (support : Option Targets) :
    gateOpen support none = true := by
  cases support <;> rfl

end StyleTree
