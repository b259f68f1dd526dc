import Mathlib.Data.List.Induction
import StyleTree.Support.Basic

/-!
# What the gate says

The gate runs through the entries of a native map and stops at the first browser that lacks the
feature.  Neither the order of the entries nor the early stop shows in the answer: the gate is open
exactly if some browser lacks the feature, and how a browser stands is decided by the last calls
that mention it.

* `lastEntry`: the last entry of a key.  A map that is built call by call keeps it
  (`get?_foldl_set`).
* `lacks_iff`: when a browser lacks a feature.
* `gateOpen_iff`: the gate is open exactly if some browser lacks the feature.
* `gateOpen_mono`: a gate stays open as long as what held it open is still there.
* `gateOpen_meaning`: the gate in terms of last entries, and three laws on a changed matrix or map,
  each of which is a case of `gateOpen_mono`.
-/

namespace StyleTree

/-! ## Last entries -/

section Entries

variable {α : Type}

/-- The last entry of a key. -/
def lastEntry (entries : List (String × α)) (key : String) : Option α :=
  entries.reverse.lookup key

theorem lastEntry_concat (entries : List (String × α)) (key key' : String) (a : α) :
    lastEntry (entries ++ [(key, a)]) key' =
      if key = key' then some a else lastEntry entries key' := by
  rw [lastEntry, List.reverse_append, List.reverse_singleton, List.singleton_append,
    List.lookup_cons]
  by_cases h : key = key'
  · rw [if_pos h, h, beq_self_eq_true]
  · rw [if_neg h, beq_eq_false_iff_ne.mpr (Ne.symm h)]
    rfl

theorem getElem?_insert (m : Std.TreeMap String α) (key key' : String) (a : α) :
    (m.insert key a)[key']? = if key = key' then some a else m[key']? := by
  rw [Std.TreeMap.getElem?_insert]
  simp only [Std.LawfulEqCmp.compare_eq_iff_eq]

/-- Something that is empty at first, and in which every call sets one entry, keeps the last entry
of each key. -/
theorem get?_foldl_set {μ : Type} {get? : μ → String → Option α}
    {set : μ → String → α → μ} {empty : μ}
    (hset : ∀ m key key' a, get? (set m key a) key' = if key = key' then some a else get? m key')
    (hempty : ∀ key, get? empty key = none) (entries : List (String × α)) (key : String) :
    get? (entries.foldl (fun m e => set m e.1 e.2) empty) key = lastEntry entries key := by
  induction entries using List.reverseRecOn with
  | nil => exact hempty key
  | append_singleton entries e ih =>
    rw [List.foldl_append, List.foldl_cons, List.foldl_nil, hset, ih, lastEntry_concat]

end Entries

/-! ## Matrices and maps -/

namespace Targets

/-- The matrix that is built by targeting and excluding browsers, one call after the other. -/
def ofEntries (entries : List (String × Target)) : Targets :=
  entries.foldl (fun m e => m.set e.1 e.2) empty

theorem get?_set (m : Targets) (b b' : String) (t : Target) :
    (m.set b t).get? b' = if b = b' then some t else m.get? b' :=
  getElem?_insert m.entries b b' t

theorem get?_ofEntries (entries : List (String × Target)) (b : String) :
    (ofEntries entries).get? b = lastEntry entries b :=
  get?_foldl_set get?_set (fun _ => rfl) entries b

end Targets

namespace NativeMap

/-- The map that is built by saying since when a browser supports the feature, or that it never
does, one call after the other. -/
def ofEntries (entries : List (String × Native)) : NativeMap :=
  entries.foldl (fun m e => m.set e.1 e.2) empty

theorem get?_set (m : NativeMap) (b b' : String) (n : Native) :
    (m.set b n).get? b' = if b = b' then some n else m.get? b' :=
  getElem?_insert m.entries b b' n

theorem get?_ofEntries (entries : List (String × Native)) (b : String) :
    (ofEntries entries).get? b = lastEntry entries b :=
  get?_foldl_set get?_set (fun _ => rfl) entries b

end NativeMap

/-! ## The gate -/

/-- A browser lacks a feature that it never supports, unless it is excluded, and one that it
supports from a later version on than it is targeted. -/
theorem lacks_iff (target : Option Target) (native : Native) : lacks target native = true ↔
    native = .never ∧ target ≠ some .excluded ∨
      ∃ version minimum, native = .since version ∧ target = some (.since minimum) ∧
      minimum < version := by
  unfold lacks
  split
  · simp
  · next hne => simpa using hne
  · simp
  · simp

variable {s s' : Targets} {d d' : NativeMap}

/-- The gate is open exactly if some browser lacks the feature. -/
theorem gateOpen_iff : gateOpen (some s) (some d) = true ↔
    ∃ b n, d.get? b = some n ∧ lacks (s.get? b) n = true := by
  unfold gateOpen
  rw [List.any_eq_true]
  constructor
  · rintro ⟨⟨b, n⟩, hmem, hlacks⟩
    exact ⟨b, n, Std.TreeMap.mem_toList_iff_getElem?_eq_some.mp hmem, hlacks⟩
  · rintro ⟨b, n, hb, hlacks⟩
    exact ⟨(b, n), Std.TreeMap.mem_toList_iff_getElem?_eq_some.mpr hb, hlacks⟩

/-- A gate stays open if every browser that lacks the feature keeps its entry and goes on lacking
it. -/
theorem gateOpen_mono
    (h : ∀ b n, d.get? b = some n → lacks (s.get? b) n = true →
      d'.get? b = some n ∧ lacks (s'.get? b) n = true)
    (hopen : gateOpen (some s) (some d) = true) : gateOpen (some s') (some d') = true := by
  obtain ⟨b, n, hb, hlacks⟩ := gateOpen_iff.mp hopen
  obtain ⟨hb', hlacks'⟩ := h b n hb hlacks
  exact gateOpen_iff.mpr ⟨b, n, hb', hlacks'⟩

/-- Excluding a browser does not open the gate. -/
theorem gateOpen_of_exclude {b : String} (h : gateOpen (some (s.exclude b)) (some d) = true) :
    gateOpen (some s) (some d) = true := by
  refine gateOpen_mono (fun b' n hb' hlacks => ⟨hb', ?_⟩) h
  rw [Targets.exclude, Targets.get?_set] at hlacks
  split at hlacks
  · exact absurd hlacks (by simp [lacks])
  · exact hlacks

/-- Targeting a browser that was not targeted before does not close the gate. -/
theorem gateOpen_target {b : String} (hb : s.get? b = none ∨ s.get? b = some .excluded)
    (version : Float) (h : gateOpen (some s) (some d) = true) :
    gateOpen (some (s.target b version)) (some d) = true := by
  refine gateOpen_mono (fun b' n hb' hlacks => ⟨hb', ?_⟩) h
  rw [Targets.target, Targets.get?_set]
  split
  · next heq =>
    -- a browser that is not targeted lacks only what it never supports
    subst heq
    rw [lacks_iff] at hlacks ⊢
    rcases hlacks with ⟨rfl, -⟩ | ⟨v, m, -, htarget, -⟩
    · exact Or.inl ⟨rfl, by simp⟩
    · rcases hb with hb | hb <;> rw [hb] at htarget <;> cases htarget
  · exact hlacks

/-- A browser that is not mentioned before does not close the gate. -/
theorem gateOpen_set {b : String} (hb : d.get? b = none) (n : Native)
    (h : gateOpen (some s) (some d) = true) : gateOpen (some s) (some (d.set b n)) = true := by
  refine gateOpen_mono (fun b' n' hb' hlacks => ⟨?_, hlacks⟩) h
  rw [NativeMap.get?_set, if_neg]
  · exact hb'
  · rintro rfl
    rw [hb] at hb'
    cases hb'

/-- The gate for a matrix and a map built by any calls is open exactly if the last call about some
browser says that it never supports the feature, and the matrix does not exclude it in the end, or
if it is targeted in the end from a version on that is below the one it supports the feature from.
So excluding a browser does not open the gate, targeting one that was not targeted does not close
it, and neither does mentioning another one in the map. -/
theorem gateOpen_meaning :
    (∀ (targets : List (String × Target)) (natives : List (String × Native)),
      gateOpen (some (.ofEntries targets)) (some (.ofEntries natives)) = true ↔
        ∃ b, lastEntry natives b = some .never ∧ lastEntry targets b ≠ some .excluded ∨
          ∃ version minimum, lastEntry natives b = some (.since version) ∧
            lastEntry targets b = some (.since minimum) ∧ minimum < version) ∧
      ∀ (s : Targets) (d : NativeMap) (b : String),
        (gateOpen (some (s.exclude b)) (some d) = true → gateOpen (some s) (some d) = true) ∧
        (s.get? b = none ∨ s.get? b = some .excluded → ∀ version,
          gateOpen (some s) (some d) = true →
          gateOpen (some (s.target b version)) (some d) = true) ∧
        (d.get? b = none → ∀ n, gateOpen (some s) (some d) = true →
          gateOpen (some s) (some (d.set b n)) = true) := by
  refine ⟨fun targets natives => ?_,
    fun s d b => ⟨gateOpen_of_exclude, gateOpen_target, gateOpen_set⟩⟩
  rw [gateOpen_iff]
  simp only [Targets.get?_ofEntries, NativeMap.get?_ofEntries, lacks_iff]
  constructor
  · rintro ⟨b, n, hn, ⟨rfl, hne⟩ | ⟨version, minimum, rfl, htarget, hlt⟩⟩
    · exact ⟨b, Or.inl ⟨hn, hne⟩⟩
    · exact ⟨b, Or.inr ⟨version, minimum, hn, htarget, hlt⟩⟩
  · rintro ⟨b, ⟨hn, hne⟩ | ⟨version, minimum, hn, htarget, hlt⟩⟩
    · exact ⟨b, .never, hn, Or.inl ⟨rfl, hne⟩⟩
    · exact ⟨b, .since version, hn, Or.inr ⟨version, minimum, rfl, htarget, hlt⟩⟩

/-- Calls of which later ones replace earlier ones: the first about each browser would decide
differently. -/
def overwritten : List (String × Target) × List (String × Native) :=
  ([("chrome", .excluded), ("firefox", .since 4), ("chrome", .since 10.5), ("firefox", .excluded)],
    [("firefox", .since 16), ("chrome", .since 4), ("firefox", .never), ("chrome", .since 43)])

/-- The gate is open because of one browser only.  It stays open if the other one is targeted after
all, or if a third one is mentioned, and it is closed if the first one is excluded too. -/
theorem gateOpen_meaning_overwritten :
    let s := Targets.ofEntries overwritten.1
    let d := NativeMap.ofEntries overwritten.2
    gateOpen (some s) (some d) = true ∧ gateOpen (some (s.target "firefox" 60)) (some d) = true ∧
      gateOpen (some s) (some (d.since "safari" 9)) = true ∧
      gateOpen (some (s.exclude "chrome")) (some d) = false := by
  intro s d
  have hopen : gateOpen (some s) (some d) = true :=
    (gateOpen_meaning.1 overwritten.1 overwritten.2).mpr
      ⟨"chrome", Or.inr ⟨43, 10.5, rfl, rfl, by decide⟩⟩
  exact ⟨hopen, (gateOpen_meaning.2 s d "firefox").2.1 (Or.inr rfl) 60 hopen,
    (gateOpen_meaning.2 s d "safari").2.2 rfl (.since 9) hopen, by decide +kernel⟩

end StyleTree
