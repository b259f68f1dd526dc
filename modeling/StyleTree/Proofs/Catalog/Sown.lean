import StyleTree.Proofs.Catalog.Planted
import StyleTree.Proofs.Edit.Place

/-!
# Sown trees

The trees of this module are made like planted ones, from descriptions whose texts are plain, but
nothing is asked of how a text starts: the head of a rule or the name of a declaration may begin
with an at-sign, so that it could not be read back.  What matters to a cover of declarations can be
read back all the same.

* `Spec.Simple`, `Tree.Sown`: the descriptions and the trees.  Planted trees are sown
  (`Planted.sown`).
* `Node.Simple`: what all nodes of such a tree have in common (`Sown.simple`).
-/

namespace StyleTree

open StyleTree.Tree Relation

/-! ## Simple descriptions -/

/-- A description with plain texts.  The name of an at-rule is an identifier, that of a declaration
has no colon, and only blocks have children. -/
inductive Spec.Simple : Spec → Prop
  | rule {text : String} {children : List Spec} (htext : Css.IsPlain text.toList)
      (hchildren : ∀ s ∈ children, Simple s) : Simple ⟨.rule, none, some text, true, children⟩
  | block {name : String} {value : Option String} {children : List Spec}
      (hname : Css.isAtName name.toList = true)
      (hvalue : ∀ text, value = some text → Css.IsPlain text.toList)
      (hchildren : ∀ s ∈ children, Simple s) : Simple ⟨.atRule, some name, value, true, children⟩
  | statement {name : String} {value : Option String} (hname : Css.isAtName name.toList = true)
      (hvalue : ∀ text, value = some text → Css.IsPlain text.toList) :
      Simple ⟨.atRule, some name, value, false, []⟩
  | declaration {name value : String} (hname : Css.IsPlain name.toList) (hcolon : ':' ∉ name.toList)
      (hvalue : Css.IsPlain value.toList) : Simple ⟨.declaration, some name, some value, false, []⟩

theorem Spec.Plain.simple {s : Spec} (h : s.Plain) : s.Simple := by
  induction h with
  | rule htext _ _ ih => exact .rule htext ih
  | block hname hvalue _ ih => exact .block hname (fun text ht => (hvalue text ht).1) ih
  | statement hname hvalue => exact .statement hname fun text ht => (hvalue text ht).1
  | declaration hname hcolon _ hvalue => exact .declaration hname hcolon hvalue

/-- A simple description says that its topmost node is simple and that its children are. -/
theorem Spec.Simple.inv {s : Spec} (h : s.Simple) :
    (s.kind = .declaration → s.block = false ∧ s.children = [] ∧
      ∃ text, s.value = some text ∧ Css.IsPlain text.toList) ∧ ∀ c ∈ s.children, c.Simple := by
  cases h with
  | rule _ hchildren => exact ⟨by simp, hchildren⟩
  | block _ _ hchildren => exact ⟨by simp, hchildren⟩
  | statement => exact ⟨by simp, by simp⟩
  | @declaration name value _ _ hvalue => exact ⟨fun _ => ⟨rfl, rfl, value, rfl, hvalue⟩, by simp⟩

variable [Data]

/-- A node without a second name.  If it is a declaration, it is a leaf with a plain value. -/
structure Node.Simple (n : Node) : Prop where
  family : n.family = none
  leaf : n.kind = .declaration →
    n.block = false ∧ n.children = [] ∧ ∃ text, n.value = some text ∧ Css.IsPlain text.toList

namespace Tree

variable {t t' : Tree} {b : Branch} {spec : Spec} {c : Handle}

/-- The nodes of a branch with a simple description are simple. -/
theorem Shows.simple (h : t.Shows b)
    (hfamily : ∀ x ∈ b.handles, ∀ n, t.get? x = some n → n.family = none)
    (hspec : b.toSpec.Simple) : ∀ x ∈ b.handles, ∀ n, t.get? x = some n → n.Simple := by
  induction h with
  | @mk id node bs hnode hchildren _ ih =>
    rw [Branch.toSpec_mk] at hspec
    obtain ⟨hleaf, hbelow⟩ := hspec.inv
    have hmem : ∀ d ∈ bs, ∀ x ∈ d.handles, x ∈ (Branch.mk id node bs).handles := by
      intro d hd x hx
      rw [Branch.handles_mk]
      exact List.mem_cons_of_mem _ (List.mem_flatMap.mpr ⟨d, hd, hx⟩)
    intro x hx n hn
    have hfamily' := hfamily x hx n hn
    rw [Branch.handles_mk] at hx
    rcases List.mem_cons.mp hx with rfl | hx
    · obtain rfl : node = n := Option.some.inj (hnode.symm.trans hn)
      refine ⟨hfamily', fun hkind => ?_⟩
      obtain ⟨hblock, hnil, hvalue⟩ := hleaf hkind
      obtain rfl : bs = [] := List.map_eq_nil_iff.mp hnil
      exact ⟨hblock, hchildren.symm, hvalue⟩
    · obtain ⟨d, hd, hx⟩ := List.mem_flatMap.mp hx
      exact ih d hd (fun y hy => hfamily y (hmem d hd y hy))
        (hbelow _ (List.mem_map_of_mem hd)) x hx n hn

/-! ## Sown trees -/

/-- Trees made of simple descriptions: planted one by one, and appended to the root. -/
inductive Sown : Tree → Prop
  | empty : Sown Tree.empty
  | plant {t : Tree} {spec : Spec} (h : Sown t) (hspec : spec.Simple) :
      Sown ((Edit.plant spec).run t).state
  | append {t : Tree} (h : Sown t) (id : Handle) :
      Sown ((Edit.append t.root (.node id)).run t).state

theorem Planted.sown (h : t.Planted) : t.Sown := by
  induction h with
  | empty => exact .empty
  | plant _ hspec ih => exact .plant ih hspec.simple
  | append _ id ih => exact .append ih id

theorem Sown.reachable (h : t.Sown) : t.Reachable := by
  induction h with
  | empty => exact .empty
  | plant _ _ ih => exact ih.edit (.plant _)
  | append _ id ih => exact ih.edit (.append _ (.node id))

/-- Every node is simple. -/
def Simple (t : Tree) : Prop :=
  ∀ x n, t.get? x = some n → n.Simple

theorem Simple.grow (ht : t.Linked) (h : t.Simple) (hspec : spec.Simple) :
    (t.grow spec).Simple := by
  obtain ⟨b, hb⟩ := ht.grow spec
  intro x n hn
  rcases hb.origin x n hn with hold | hnew
  · obtain ⟨m, hm⟩ := Option.ne_none_iff_exists'.mp hold
    obtain rfl := Option.some.inj (hn.symm.trans (hb.frame x m hm))
    exact h x n hm
  · exact hb.shows.simple hb.family (hb.toSpec_eq.symm ▸ hspec) x hnew n hn

/-- Placing a node below the root gives children to the root only, which is no declaration. -/
theorem Simple.placed (ht : t.Linked) (hroot : t.Rooted) (h : t.Simple) {index : Option Nat}
    {after : Bool} (hplaced : Edit.Placed t t.root c index after t') : t'.Simple := by
  intro x n hn
  rw [hplaced.get? ht] at hn
  obtain ⟨m, hm, rfl⟩ := Option.map_eq_some_iff.mp hn
  refine ⟨(h x m hm).family, fun hkind => ?_⟩
  obtain ⟨hblock, hnil, hvalue⟩ := (h x m hm).leaf hkind
  have hne : x ≠ t.root := by
    rintro rfl
    obtain ⟨r, hr, hkind'⟩ := hroot
    obtain rfl : m = r := Option.some.inj (hm.symm.trans hr)
    exact absurd (hkind'.symm.trans hkind) (by simp)
  refine ⟨hblock, ?_, hvalue⟩
  simp only [if_neg hne, hnil, List.erase_nil]

theorem Sown.simple (h : t.Sown) : t.Simple := by
  induction h with
  | empty =>
    intro x n hn
    rw [get?_empty] at hn
    split at hn
    · cases hn
      exact ⟨rfl, fun hkind => absurd hkind (by simp [Node.fresh])⟩
    · exact absurd hn (by simp)
  | plant h hspec ih => exact ih.grow h.reachable.linked hspec
  | @append t h id ih =>
    have hkeeps : (Edit.append t.root (.node id)).Yields t (fun _ t' => t'.Simple)
        (fun _ t' => t'.Simple) := by
      refine (Edit.yields_add_node h.reachable.linked).mono ?_ ?_
      · rintro _ t' ⟨-, hplaced⟩
        exact ih.placed h.reachable.linked h.reachable.rooted hplaced
      · rintro _ t' ⟨rfl, -⟩
        exact ih
    exact (Action.yields_state_iff _ t Simple).mp hkeeps

end Tree

end StyleTree
