import StyleTree.Proofs.Edit.Faithful
import StyleTree.Proofs.Edit.Place
import StyleTree.Proofs.Walk.Pruned

/-!
# Planting a description

Planting makes the nodes of a description one at a time, each in whichever slot is vacant, and links
each below the one before.  The nodes of one description are therefore scattered over the arena,
between the old ones and in the order in which slots were given up.  None of this shows in the
outcome: the new branch is the description, and its text is the one that is written by recursion
over the description, with no tree in between.

* `Spec.written`: that text, kind by kind.
* `Spec.print_eq_written`: the printer of nodes, applied to a description, writes the same.
* `Grown.size_eq`: what the new nodes add to the size of the tree is the size of the description.
* `plant_faithful`: the outcome of planting in any reachable tree.
-/

namespace StyleTree

open StyleTree.Tree

section General

variable [Data]

/-! ## The text of a description -/

namespace Spec

/-- A prelude with a blank after it, or nothing if it is absent or empty. -/
def lead (prelude : Option String) : String :=
  if prelude.getD "" = "" then "" else prelude.getD "" ++ " "

/-- Texts in braces after a head, on lines of their own; nothing if there are no texts. -/
def braced (lb head : String) (texts : List String) : String :=
  if texts = [] then "" else head ++ ("\x7b" ++ lb ++ lb.intercalate texts ++ lb ++ "\x7d")

mutual

/-- The text of a description.  A document is the texts of its children, a rule its prelude and
these texts in braces, an at-rule the same after its name, or its name and prelude alone. -/
def written (lb : String) : Spec → String
  | ⟨.root, _, _, _, children⟩ => lb.intercalate (writtenAll lb children)
  | ⟨.rule, _, prelude, _, children⟩ => braced lb (lead prelude) (writtenAll lb children)
  | ⟨.atRule, name, prelude, true, children⟩ =>
    braced lb ("@" ++ name.getD "" ++ " " ++ lead prelude) (writtenAll lb children)
  | ⟨.atRule, name, prelude, false, _⟩ =>
    if prelude.getD "" = "" then "@" ++ name.getD "" ++ ";"
    else "@" ++ name.getD "" ++ " " ++ prelude.getD "" ++ ";"
  | ⟨.declaration, some name, value, _, _⟩ => name ++ ": " ++ value.getD "" ++ ";"
  | ⟨.declaration, none, _, _, _⟩ => ""

/-- The texts of several descriptions, those that are not empty. -/
def writtenAll (lb : String) : List Spec → List String
  | [] => []
  | s :: ss =>
    if written lb s = "" then writtenAll lb ss else written lb s :: writtenAll lb ss

end

omit [Data] in
theorem withPrelude_eq_lead (prelude : Option String) (rest : String) :
    withPrelude prelude rest = lead prelude ++ rest := by
  unfold withPrelude lead
  cases prelude with
  | none => simp
  | some p =>
    by_cases hp : p = ""
    · simp [hp]
    · simp [hp]

omit [Data] in
theorem blockText_eq_braced (lb : String) (prelude : Option String) (texts : List String) :
    blockText lb prelude (joinTexts lb texts) =
      braced lb (lead prelude) (texts.filter (· ≠ "")) := by
  unfold blockText braced
  by_cases hnil : texts.filter (· ≠ "") = []
  · rw [if_pos (joinTexts_eq_empty_iff.mpr hnil), if_pos hnil]
  · rw [if_neg (mt joinTexts_eq_empty_iff.mp hnil), if_neg hnil, withPrelude_eq_lead]
    rfl

omit [Data] in
/-- A text in front of a block that is written. -/
theorem append_braced (lb name head : String) (texts : List String) :
    (if braced lb head texts = "" then "" else name ++ braced lb head texts) =
      braced lb (name ++ head) texts := by
  unfold braced
  by_cases hnil : texts = []
  · simp [hnil]
  · simp [hnil, String.append_assoc]

mutual

/-- A description is printed as it is written. -/
theorem print_eq_written (lb : String) (s : Spec) : s.print lb = s.written lb := by
  obtain ⟨kind, name, value, block, children⟩ := s
  have htexts := printAll_eq_writtenAll lb children
  rw [print]
  cases kind with
  | root =>
    rw [written, ← htexts]
    rfl
  | rule =>
    rw [written, ← htexts, ← blockText_eq_braced]
    rfl
  | atRule =>
    cases block with
    | true =>
      rw [written, ← append_braced, ← htexts, ← blockText_eq_braced]
      rfl
    | false =>
      rw [written]
      rfl
  | declaration =>
    cases name with
    | none =>
      rw [written]
      rfl
    | some name =>
      rw [written]
      rfl

theorem printAll_eq_writtenAll (lb : String) (ss : List Spec) :
    (printAll lb ss).filter (· ≠ "") = writtenAll lb ss := by
  match ss with
  | [] => rfl
  | s :: ss =>
    rw [printAll, writtenAll, print_eq_written lb s, List.filter_cons, printAll_eq_writtenAll lb ss]
    by_cases hs : s.written lb = ""
    · simp [hs]
    · simp [hs]

end

end Spec

/-! ## The number of new nodes -/

namespace Branch

mutual

theorem length_handles (b : Branch) : b.handles.length = b.toSpec.size := by
  obtain ⟨id, node, bs⟩ := b
  rw [handles_mk, toSpec, Spec.size, List.length_cons, length_flatMap_handles bs]

theorem length_flatMap_handles (bs : List Branch) :
    (bs.flatMap handles).length = Spec.sizeAll (toSpecs bs) := by
  match bs with
  | [] => rfl
  | b :: bs =>
    rw [List.flatMap_cons, List.length_append, toSpecs, Spec.sizeAll, length_handles b,
      length_flatMap_handles bs]

end

end Branch

namespace Tree

variable {t t' : Tree} {spec : Spec} {b : Branch}

/-- The nodes after growing are the old ones and those of the new branch. -/
theorem Grown.live_iff (h : Grown t t' spec b) (x : Handle) :
    (∃ m, t'.get? x = some m) ↔ (∃ m, t.get? x = some m) ∨ x ∈ b.handles := by
  constructor
  · rintro ⟨m, hm⟩
    exact (h.origin x m hm).imp_left Option.ne_none_iff_exists'.mp
  · rintro (⟨m, hm⟩ | hx)
    · exact ⟨m, h.frame x m hm⟩
    · exact h.shows.live_of_mem hx

/-- Each new node takes a slot of its own. -/
theorem Grown.perm_handles (ht : t.Linked) (h : Grown t t' spec b) :
    t'.arena.handles.Perm (t.arena.handles ++ b.handles) := by
  have hnodup : (t.arena.handles ++ b.handles).Nodup := by
    refine (Arena.nodup_handles _).append (h.shows.nodup_handles (h.steps.linked ht)) ?_
    intro x hold hnew
    obtain ⟨m, hm⟩ := Arena.mem_handles_iff.mp hold
    have hnone : t.arena.get? x = none := h.fresh x hnew
    rw [hnone] at hm
    exact absurd hm (by simp)
  -- neither list repeats an entry, so it is enough that they have the same ones
  rw [List.perm_ext_iff_of_nodup (Arena.nodup_handles _) hnodup]
  intro x
  rw [List.mem_append, Arena.mem_handles_iff, Arena.mem_handles_iff]
  exact h.live_iff x

theorem Grown.size_eq (ht : t.Linked) (h : Grown t t' spec b) : t'.size = t.size + spec.size := by
  show t'.arena.handles.length = t.arena.handles.length + spec.size
  rw [(h.perm_handles ht).length_eq, List.length_append, b.length_handles, h.toSpec_eq]

end Tree

/-! ## Planting -/

namespace Edit

variable {t : Tree}

/-- Planting a description in a reachable tree.  It succeeds with the handle of a new orphan.  The
new nodes are those of one whole branch, as many as the description has; every old node is as it
was, and so is the root.  The branch reads back as the description, every node in it keeps the
vendor that its name carries, and its text is in every style the one that is written by recursion
over the description. -/
theorem plant_faithful (h : t.Reachable) (spec : Spec) :
    let o := (plant spec).run t
    ∃ b, o.result = .ok b.id ∧ t.get? b.id = none ∧ o.state.Shows b ∧ b.node.parent = none ∧
      o.state.size = t.size + spec.size ∧
      (∀ x, (∃ m, o.state.get? x = some m) ↔ (∃ m, t.get? x = some m) ∨ x ∈ b.handles) ∧
      (∀ x ∈ b.handles, t.get? x = none) ∧
      (∀ x n, t.get? x = some n → o.state.get? x = some n) ∧ o.state.root = t.root ∧
      b.toSpec = spec ∧ (∀ e ∈ b.entries, e.2.vendor = e.2.name.bind vendorOfName) ∧
      ∀ style, o.state.print style b.id = .ok (spec.written style) := by
  intro o
  have ht := h.linked
  have hstate : o.state = t.grow spec := rfl
  obtain ⟨b, hb⟩ := ht.grow spec
  have hresult : o.result = .ok b.id := by
    rw [hb.id_eq]
    rfl
  have hlabelled : o.state.Labelled := (h.edit (.plant spec)).labelled
  rw [← hstate] at hb
  have ht' : o.state.Linked := hb.steps.linked ht
  refine ⟨b, hresult, hb.fresh _ b.id_mem_handles, hb.shows, hb.orphan, hb.size_eq ht,
    hb.live_iff, hb.fresh, hb.frame, hb.steps.root, hb.toSpec_eq, ?_, ?_⟩
  · rintro ⟨x, m⟩ he
    exact hlabelled x m (hb.shows.get?_of_mem_entries he)
  · intro style
    rw [hb.shows.print_eq ht', b.print_eq, hb.toSpec_eq, Spec.print_eq_written]

end Edit

end General

namespace Edit

/-- A description that no text is read as: an at-rule with an empty prelude, a declaration without a
name, and one without a value that has a rule below it. -/
def motley : Spec :=
  ⟨.atRule, some "-webkit-keyframes", some "", true, [
    .rule "from" [.declaration "-moz-x" "1"],
    .rule "b" [],
    ⟨.declaration, none, some "1", false, []⟩,
    ⟨.declaration, some "y", none, true, [.rule "c" [.declaration "z" "2"]]⟩]⟩

/-- The tree of two rules after the first of them has been taken out and freed. -/
def vacated : Tree :=
  (compact.run ((detach ⟨2, 1⟩).run twoRules).state).state

/-- Planted where three slots are vacant, the description takes these, the one given up last first,
and then new ones. -/
theorem plant_faithful_vacated :
    let o := (plant motley).run vacated
    vacated.Reachable ∧ vacated.size = 3 ∧ motley.size = 8 ∧ o.result = .ok ⟨4, 3⟩ ∧
    o.state.size = 11 ∧
      (∃ b, o.state.Shows b ∧ b.id = ⟨4, 3⟩ ∧ b.toSpec = motley ∧
        b.handles = [⟨4, 3⟩, ⟨3, 3⟩, ⟨2, 3⟩, ⟨7, 1⟩, ⟨8, 1⟩, ⟨9, 1⟩, ⟨10, 1⟩, ⟨11, 1⟩]) ∧
      o.state.print "" ⟨4, 3⟩ = .ok "@-webkit-keyframes \x7bfrom \x7b-moz-x: 1;\x7dy: ;\x7d" := by
  intro o
  have hreachable : vacated.Reachable := (reachable_twoRules.edit (.detach ⟨2, 1⟩)).edit .compact
  have hsize : vacated.size = 3 := by decide +kernel
  obtain ⟨b, hresult, -, hshows, -, hgrown, -, -, -, -, hspec, -, hprint⟩ :=
    plant_faithful hreachable motley
  have hid : b.id = ⟨4, 3⟩ := Except.ok.inj (hresult.symm.trans rfl)
  rw [hid] at hresult hprint
  have hhandles : (o.state.below ⟨4, 3⟩).map Prod.fst =
      [⟨4, 3⟩, ⟨3, 3⟩, ⟨2, 3⟩, ⟨7, 1⟩, ⟨8, 1⟩, ⟨9, 1⟩, ⟨10, 1⟩, ⟨11, 1⟩] := by decide +kernel
  refine ⟨hreachable, hsize, rfl, hresult, ?_, ⟨b, hshows, hid, hspec, ?_⟩, ?_⟩
  · rw [hgrown, hsize]
    rfl
  · rw [← hhandles, ← hid, hshows.below_eq (hreachable.edit (.plant motley)).linked]
    rfl
  · rw [hprint]
    decide +kernel

end Edit

end StyleTree
