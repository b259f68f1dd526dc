import StyleTree.Proofs.Catalog.Ends

/-!
# Planted trees and the catalog

The trees and the covers that the statements about the catalog are about.

* `Tree.Planted`: the trees that come of planting plain descriptions and appending what is planted
  to the root, in any order.  They are reachable and regular.
* `Cover.catalog`: the modules of the catalog as covers.  All of them are tame (`tame_catalog`).
* `exists_apply_catalog`, `completes_of_apply_catalog`: what is known of covers, for the catalog.
-/

namespace StyleTree

open StyleTree.Tree Relation

section General

variable [Data]

namespace Tree

variable {t t' : Tree} {spec : Spec} {p c : Handle}

/-- Trees made of plain descriptions: planted one by one, and appended to the root. -/
inductive Planted : Tree → Prop
  | empty : Planted Tree.empty
  | plant {t : Tree} {spec : Spec} (h : Planted t) (hspec : spec.Plain) :
      Planted ((Edit.plant spec).run t).state
  | append {t : Tree} (h : Planted t) (id : Handle) :
      Planted ((Edit.append t.root (.node id)).run t).state

theorem Planted.reachable (h : t.Planted) : t.Reachable := by
  induction h with
  | empty => exact .empty
  | plant _ _ ih => exact ih.edit (.plant _)
  | append _ id ih => exact ih.edit (.append _ (.node id))

/-- Every node but the root is plain, whether it is beneath the root or not. -/
def PlainNodes (t : Tree) : Prop :=
  ∀ x n, t.get? x = some n → x ≠ t.root → n.Plain

theorem PlainNodes.grow (ht : t.Linked) (h : t.PlainNodes) (hspec : spec.Plain) :
    (t.grow spec).PlainNodes := by
  obtain ⟨b, hb⟩ := ht.grow spec
  intro x n hn hne
  rcases hb.origin x n hn with hold | hnew
  · obtain ⟨m, hm⟩ := Option.ne_none_iff_exists'.mp hold
    obtain rfl := Option.some.inj (hn.symm.trans (hb.frame x m hm))
    exact h x n hm fun hx => hne (hx.trans hb.steps.root.symm)
  · exact (hb.shows.plain_iff hb.family).mpr (hb.toSpec_eq.symm ▸ hspec) x hnew n hn

/-- Placing a node below the root changes attributes of none, and children only of the root. -/
theorem PlainNodes.placed (ht : t.Linked) (h : t.PlainNodes) {index : Option Nat} {after : Bool}
    (hplaced : Edit.Placed t t.root c index after t') : t'.PlainNodes := by
  have hroot : t'.root = t.root := (hplaced.steps ht).root
  intro x n hn hne
  rw [hroot] at hne
  obtain ⟨hp, hc, hb, hn'⟩ := hplaced
  have hcp : c ≠ t.root := by
    rintro rfl
    exact hb (Beneath.refl t _)
  rw [get?_link _ hcp, if_neg hne, get?_unlink ht, get?_unlink ht] at hn
  have hfilter : ∀ m : Node, m.children = [] → m.children.filter (· ≠ c) = [] := fun m hm => by
    rw [hm, List.filter_nil]
  split at hn
  · next hxc =>
    rw [Option.map_map] at hn
    obtain ⟨m, hm, rfl⟩ := Option.map_eq_some_iff.mp hn
    exact (h x m (hxc ▸ hm) hne).congr rfl rfl (hfilter m)
  · obtain ⟨m, hm, rfl⟩ := Option.map_eq_some_iff.mp hn
    exact (h x m hm hne).congr rfl rfl (hfilter m)

theorem Planted.plainNodes (h : t.Planted) : t.PlainNodes := by
  induction h with
  | empty =>
    intro x n hn hne
    rw [get?_empty, if_neg hne] at hn
    exact absurd hn (by simp)
  | plant h hspec ih => exact ih.grow h.reachable.linked hspec
  | @append t h id ih =>
    have hkeeps : (Edit.append t.root (.node id)).Yields t (fun _ t' => t'.PlainNodes)
        (fun _ t' => t'.PlainNodes) := by
      refine (Edit.yields_add_node h.reachable.linked).mono ?_ ?_
      · rintro _ t' ⟨-, hplaced⟩
        exact ih.placed h.reachable.linked hplaced
      · rintro _ t' ⟨rfl, -⟩
        exact ih
    exact (Action.yields_state_iff _ t PlainNodes).mp hkeeps

theorem Planted.regular (h : t.Planted) : t.Regular where
  linked := h.reachable.linked
  rooted := h.reachable.rooted
  plain := fun x n _ hne hn => h.plainNodes x n hn hne
  labelled := h.reachable.labelled

end Tree

/-! ## The catalog -/

namespace Cover

/-- The modules of the catalog. -/
def catalog : List (List Cover) :=
  [[.atRule "keyframes" "-webkit-" Catalog.webkitKeyframes,
    .atRule "keyframes" "-moz-" Catalog.mozKeyframes],
    [.declaration "transition" "-webkit-" Catalog.webkitTransition]]

theorem plan_catalog {ι : Type} (support : Option Targets) :
    (plan support catalog : Plan ι) = ⟨Catalog.all, support⟩ :=
  rfl

omit [Data] in
theorem tame_catalog : ∀ c ∈ catalog.flatten, c.Tame := by
  simp only [catalog, List.flatten_cons, List.flatten_nil, List.cons_append, List.nil_append,
    List.mem_cons, List.not_mem_nil, or_false]
  rintro c (rfl | rfl | rfl)
  · exact tame_atRule (by decide +kernel) (by decide +kernel) (by decide +kernel)
  · exact tame_atRule (by decide +kernel) (by decide +kernel) (by decide +kernel)
  · exact tame_declaration (by decide +kernel) (by decide +kernel) (by decide +kernel)
      (by decide +kernel) (by decide +kernel)

omit [Data] in
theorem tame_needed_catalog (support : Option Targets) :
    ∀ c ∈ needed support catalog.flatten, c.Tame :=
  fun c hc => tame_catalog c (List.mem_of_mem_filter hc)

end Cover

/-- The catalog is applied to a regular tree with success, given enough steps. -/
theorem exists_apply_catalog {ι : Type} (support : Option Targets) {w : Workspace ι}
    (hw : w.tree.Regular) : ∃ w' least, ∀ steps, least ≤ steps →
      ((Plan.apply ⟨Catalog.all, support⟩ steps).run w).result = .ok () ∧
      ((Plan.apply ⟨Catalog.all, support⟩ steps).run w).state = w' := by
  have happly := exists_apply (Cover.tame_needed_catalog support) hw
  exact happly

/-- The catalog, applied with success, makes the moves of a whole walk. -/
theorem completes_of_apply_catalog {ι : Type} {support : Option Targets} {w : Workspace ι}
    (hw : w.tree.Linked) (hroot : w.tree.Rooted) {steps : Nat}
    (hok : ((Plan.apply ⟨Catalog.all, support⟩ steps).run w).result = .ok ()) :
    ∃ s, Completes (Cover.needed support Cover.catalog.flatten) w.tree s ∧
      s.tree = ((Plan.apply ⟨Catalog.all, support⟩ steps).run w).state.tree := by
  rw [← Cover.plan_catalog] at hok ⊢
  exact completes_of_apply hw hroot hok

end General

/-! ## A tree with two vendors -/

/-- Keyframes for one vendor.  In them are keyframes for all vendors, which need copies, and a
declaration of another vendor, which has to go. -/
def nestedKeyframes : Spec :=
  .atRule "-webkit-keyframes" "a"
    (some [.atRule "keyframes" "b" (some [.declaration "transition" "c"]),
    .declaration "-moz-d" "e"])

theorem plain_nestedKeyframes : nestedKeyframes.Plain := by
  have hvalue : ∀ text, Css.IsPlain text.toList → text ≠ "" → ∀ s, some text = some s →
      Css.IsPlain s.toList ∧ s ≠ "" := by
    rintro text hplain hne s ⟨rfl⟩
    exact ⟨hplain, hne⟩
  have hinner : ∀ s ∈ [Spec.declaration "transition" "c"], s.Plain := by
    intro s hs
    obtain rfl := List.mem_singleton.mp hs
    exact .declaration (by decide +kernel) (by decide) (by decide) (by decide +kernel)
  have houter : ∀ s ∈ [Spec.atRule "keyframes" "b" (some [.declaration "transition" "c"]),
      .declaration "-moz-d" "e"], s.Plain := by
    simp only [List.mem_cons, List.not_mem_nil, or_false]
    rintro s (rfl | rfl)
    · exact .block (by decide) (hvalue "b" (by decide +kernel) (by decide)) hinner
    · exact .declaration (by decide +kernel) (by decide) (by decide) (by decide +kernel)
  exact .block (by decide) (hvalue "a" (by decide +kernel) (by decide)) houter

/-- The tree with these keyframes below its root. -/
def Tree.nested : Tree :=
  let t := ((Edit.plant nestedKeyframes).run Tree.empty).state
  ((Edit.append t.root (.node ⟨2, 1⟩)).run t).state

theorem Tree.planted_nested : Tree.nested.Planted :=
  .append (.plant .empty plain_nestedKeyframes) ⟨2, 1⟩

end StyleTree
