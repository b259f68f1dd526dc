import StyleTree.Proofs.Tree.Step

/-!
# Nodes that stay where they are

Some changes of a tree add nodes and take nodes out, but give no node another parent.

* `Kept t t'`: the nodes of `t` are still there in `t'`, and each hangs where it hung or nowhere.
* `Kept.beneath`: ways up from old nodes are therefore old ways.  This needs that no freed handle
  comes back, because the root may name one as its parent.
* `Kept.of_frame`: steps that leave every old node as it is are such a change.
-/

namespace StyleTree.Tree

open Relation

variable [Data] {t t' t'' : Tree} {x y p : Handle} {n : Node}

/-- Every node of the first tree is in the second one and hangs where it hung or nowhere, and freed
handles stay freed. -/
structure Kept (t t' : Tree) : Prop where
  root : t'.root = t.root
  node : ∀ x n, t.get? x = some n →
    ∃ n', t'.get? x = some n' ∧ (n'.parent = n.parent ∨ n'.parent = none)
  freed : ∀ x, t.arena.Freed x → t'.arena.Freed x

theorem Kept.refl (t : Tree) : Kept t t :=
  ⟨rfl, fun _ n hn => ⟨n, hn, Or.inl rfl⟩, fun _ hf => hf⟩

theorem Kept.trans (h : Kept t t') (h' : Kept t' t'') : Kept t t'' := by
  refine ⟨h'.root.trans h.root, fun x n hn => ?_, fun x hf => h'.freed x (h.freed x hf)⟩
  obtain ⟨n', hn', hp⟩ := h.node x n hn
  obtain ⟨n'', hn'', hp'⟩ := h'.node x n' hn'
  refine ⟨n'', hn'', ?_⟩
  rcases hp' with hp' | hp'
  · rwa [hp']
  · exact Or.inr hp'

theorem Kept.live (h : Kept t t') (hx : ∃ n, t.get? x = some n) : ∃ n, t'.get? x = some n := by
  obtain ⟨n, hn⟩ := hx
  obtain ⟨n', hn', -⟩ := h.node x n hn
  exact ⟨n', hn'⟩

theorem Kept.hangs (h : Kept t t') (hx : ∃ n, t.get? x = some n) (hp : t'.Hangs x p) :
    t.Hangs x p := by
  obtain ⟨n, hn⟩ := hx
  obtain ⟨n', hn', hparent⟩ := h.node x n hn
  obtain ⟨m, hm, hmp⟩ := hp
  rw [hn'] at hm
  cases hm
  rcases hparent with hparent | hparent
  · exact ⟨n, hn, hparent ▸ hmp⟩
  · rw [hparent] at hmp
    exact absurd hmp (by simp)

/-- The ways up from an old node are old: its parent is an old node again, unless it is the root and
the parent has been freed, and then the way ends there. -/
theorem Kept.beneath (ht : t.Linked) (h : Kept t t') (hx : ∃ n, t.get? x = some n)
    (hb : t'.Beneath x y) : t.Beneath x y := by
  induction hb using ReflTransGen.head_induction_on with
  | refl => exact Beneath.refl t _
  | head hxz hzy ih =>
    have hh := h.hangs hx hxz
    rcases ht.lists_of_hangs _ _ hh with hl | ⟨-, hf⟩
    · exact (Beneath.of_hangs hh).trans (ih hl.live)
    · have hdead := (h.freed _ hf).get?_eq_none
      rw [← Beneath.eq_of_dead hzy hdead]
      exact Beneath.of_hangs hh

/-- What is above an old node, if it is a node at all, is an old node. -/
theorem Kept.live_of_beneath (ht : t.Linked) (h : Kept t t') (hx : ∃ n, t.get? x = some n)
    (hb : t'.Beneath x y) (hy : ∃ n, t'.get? y = some n) : ∃ n, t.get? y = some n := by
  rcases ReflTransGen.cases_tail (h.beneath ht hx hb) with rfl | ⟨z, -, hzy⟩
  · exact hx
  · rcases ht.lists_of_hangs z y hzy with hl | ⟨-, hf⟩
    · exact hl.live
    · obtain ⟨n, hn⟩ := hy
      rw [get?, (h.freed y hf).get?_eq_none] at hn
      exact absurd hn (by simp)

/-- Steps that leave every old node as it is. -/
theorem Kept.of_frame (ht : t.Linked) (hs : Steps t t')
    (hframe : ∀ k n, t.get? k = some n → t'.get? k = some n) : Kept t t' :=
  ⟨hs.root, fun x n hn => ⟨n, hframe x n hn, Or.inl rfl⟩, fun _ hf => hs.freed ht hf⟩

/-- If every old node is left as it is, then so are the ways up from it. -/
theorem Linked.beneath_of_frame (ht : t.Linked) (hs : Steps t t')
    (hframe : ∀ k n, t.get? k = some n → t'.get? k = some n) (hx : t.get? x = some n) :
    t'.Beneath x y ↔ t.Beneath x y := by
  constructor
  · exact (Kept.of_frame ht hs hframe).beneath ht ⟨n, hx⟩
  · intro h
    refine ReflTransGen.mono ?_ x y h
    rintro a b ⟨m, hm, hb⟩
    exact ⟨m, hframe a m hm, hb⟩

end StyleTree.Tree
