import Mathlib.Logic.Relation
import StyleTree.Proofs.Arena
import StyleTree.Tree.Branch

/-!
# Links

A tree keeps every edge twice: the child names its parent, and the parent lists the child.  `Hangs`
is the first half of an edge and `Lists` the second, and `Linked` says that the two halves agree and
that the edges form a forest.  The one edge that may be kept once only belongs to the root: the root
can be hung from an orphan, and when that orphan is freed the root still names it.

* `Hangs`, `Lists`, `Beneath`: the two halves of an edge, and the order that the first half makes.
* `Linked`: the invariant.
* `get?_update`, `get?_insert`, `get?_link`, `get?_unlink`, `get?_isolate`: what the operations do
  to each node.  Under `Linked` unlinking reads the same at every node, which is the form used
  later.
-/

namespace StyleTree.Tree

open Relation

variable [Data] {t : Tree} {id p c x y : Handle} {n : Node}

/-- A node names another as its parent. -/
def Hangs (t : Tree) (x p : Handle) : Prop :=
  ∃ n, t.get? x = some n ∧ n.parent = some p

/-- A node lists another among its children. -/
def Lists (t : Tree) (p x : Handle) : Prop :=
  ∃ n, t.get? p = some n ∧ x ∈ n.children

/-- A node is another one or lies beneath it: parent links lead from the first to the second. -/
def Beneath (t : Tree) : Handle → Handle → Prop :=
  ReflTransGen t.Hangs

/-- The two halves of every edge agree, and the edges form a forest. -/
structure Linked (t : Tree) : Prop where
  sound : t.arena.Sound
  root : ∃ n, t.get? t.root = some n
  hangs_of_lists : ∀ p x, t.Lists p x → t.Hangs x p
  nodup : ∀ p n, t.get? p = some n → n.children.Nodup
  lists_of_hangs : ∀ x p, t.Hangs x p → t.Lists p x ∨ x = t.root ∧ t.arena.Freed p
  acyclic : ∀ x, ¬ TransGen t.Hangs x x

/-! ## The order beneath -/

/-- A node has one parent. -/
theorem Hangs.unique (h : t.Hangs x p) (h' : t.Hangs x y) : p = y := by
  obtain ⟨n, hn, hp⟩ := h
  obtain ⟨m, hm, hy⟩ := h'
  rw [hn] at hm
  cases hm
  exact Option.some.inj (hp.symm.trans hy)

theorem Hangs.live (h : t.Hangs x p) : ∃ n, t.get? x = some n := by
  obtain ⟨n, hn, -⟩ := h
  exact ⟨n, hn⟩

theorem Lists.live (h : t.Lists p x) : ∃ n, t.get? p = some n := by
  obtain ⟨n, hn, -⟩ := h
  exact ⟨n, hn⟩

theorem Beneath.refl (t : Tree) (x : Handle) : t.Beneath x x :=
  ReflTransGen.refl

theorem Beneath.trans (h : t.Beneath x y) (h' : t.Beneath y p) : t.Beneath x p :=
  ReflTransGen.trans h h'

theorem Beneath.of_hangs (h : t.Hangs x p) : t.Beneath x p :=
  ReflTransGen.single h

/-- Beneath a node without a node there is nothing. -/
theorem Beneath.eq_of_dead (h : t.Beneath x y) (hx : t.get? x = none) : x = y := by
  rcases ReflTransGen.cases_head h with rfl | ⟨z, hz, -⟩
  · rfl
  · obtain ⟨n, hn⟩ := hz.live
    rw [hx] at hn
    exact absurd hn (by simp)

/-- What is strictly beneath a node hangs from something beneath it. -/
theorem Beneath.hangs_of_ne (h : t.Beneath x y) (hne : x ≠ y) :
    ∃ z, t.Hangs x z ∧ t.Beneath z y := by
  rcases ReflTransGen.cases_head h with rfl | hz
  · exact absurd rfl hne
  · exact hz

/-- What hangs from a node and lies beneath a second one has its parent beneath the second one, or
is that one. -/
theorem Beneath.parent (h : t.Beneath x y) (hne : x ≠ y) (hx : t.Hangs x p) : t.Beneath p y := by
  obtain ⟨z, hz, hzy⟩ := h.hangs_of_ne hne
  rwa [hx.unique hz]

theorem Beneath.transGen_of_ne (h : t.Beneath x y) (hne : x ≠ y) : TransGen t.Hangs x y :=
  (reflTransGen_iff_eq_or_transGen.mp h).resolve_left fun he => hne he.symm

/-- Two nodes that both lie above a third one are comparable. -/
theorem Beneath.total (h : t.Beneath x y) (h' : t.Beneath x p) : t.Beneath y p ∨ t.Beneath p y :=
  ReflTransGen.total_of_right_unique (fun _ _ _ => Hangs.unique) h h'

namespace Linked

theorem ne_of_hangs (ht : t.Linked) (h : t.Hangs x p) : x ≠ p := by
  rintro rfl
  exact ht.acyclic x (TransGen.single h)

theorem eq_of_beneath_of_beneath (ht : t.Linked) (h : t.Beneath x y) (h' : t.Beneath y x) :
    x = y := by
  by_contra hne
  exact ht.acyclic x ((h.transGen_of_ne hne).trans_left h')

/-- A node is not beneath what hangs from it. -/
theorem not_beneath_of_hangs (ht : t.Linked) (h : t.Hangs x p) : ¬ t.Beneath p x := fun hpx =>
  ht.acyclic x (TransGen.head' h hpx)

/-- A parent that is a node lists its child. -/
theorem lists_of_hangs_of_live (ht : t.Linked) (h : t.Hangs x p) (hp : t.get? p = some n) :
    t.Lists p x := by
  rcases ht.lists_of_hangs x p h with hl | ⟨-, hf⟩
  · exact hl
  · rw [get?, hf.get?_eq_none] at hp
    exact absurd hp (by simp)

/-- Everything beneath a node is a node. -/
theorem live_of_beneath (h : t.Beneath x y) (hy : t.get? y = some n) :
    ∃ m, t.get? x = some m := by
  rcases ReflTransGen.cases_head h with rfl | ⟨z, hz, -⟩
  · exact ⟨n, hy⟩
  · exact hz.live

end Linked

/-! ## What the operations do to each node -/

theorem get?_update (t : Tree) (id : Handle) (f : Node → Node) (k : Handle) :
    (t.update id f).get? k = if k = id then (t.get? id).map f else t.get? k :=
  Arena.get?_modify ..

@[simp] theorem root_update (t : Tree) (id : Handle) (f : Node → Node) :
    (t.update id f).root = t.root := rfl

theorem get?_insert (ht : t.arena.Sound) (node : Node) (k : Handle) :
    (t.insert node).get? k = if k = t.next then some node else t.get? k :=
  Arena.get?_insert ht ..

@[simp] theorem root_insert (t : Tree) (node : Node) : (t.insert node).root = t.root := rfl

theorem get?_next (ht : t.arena.Sound) : t.get? t.next = none :=
  Arena.get?_next ht

/-- Linking changes the parent of the child and the children of the parent. -/
theorem get?_link (t : Tree) (hne : c ≠ p) (position : Option Nat) (k : Handle) :
    (t.link p c position).get? k =
      if k = p then (t.get? p).map fun n => { n with children := place c position n.children }
      else if k = c then (t.get? c).map fun n => { n with parent := some p }
      else t.get? k := by
  unfold link
  rw [get?_update, get?_update, get?_update]
  by_cases hp : k = p
  · rw [if_pos hp, if_pos hp, if_neg hne.symm]
  · rw [if_neg hp, if_neg hp]

@[simp] theorem root_link (t : Tree) (p c : Handle) (position : Option Nat) :
    (t.link p c position).root = t.root := rfl

@[simp] theorem root_unlink (t : Tree) (id : Handle) : (t.unlink id).root = t.root := by
  unfold unlink
  split <;> rfl

/-- Filtering the children by a test that all of them pass changes nothing. -/
theorem filter_children_ne (h : id ∉ n.children) :
    { n with children := n.children.filter (· ≠ id) } = n := by
  have hf : n.children.filter (· ≠ id) = n.children := by
    rw [List.filter_eq_self]
    intro c hc
    have hne : c ≠ id := fun he => h (he ▸ hc)
    exact decide_eq_true hne
  rw [hf]

theorem unlink_of_orphan (h : ∀ p, ¬ t.Hangs id p) : t.unlink id = t := by
  unfold unlink
  split
  · next p hp =>
    obtain ⟨n, hn, hnp⟩ := Option.bind_eq_some_iff.mp hp
    exact absurd ⟨n, hn, hnp⟩ (h p)
  · rfl

theorem unlink_of_hangs (h : t.Hangs id p) :
    t.unlink id = (t.update p fun n => { n with children := n.children.filter (· ≠ id) }).update id
      fun n => { n with parent := none } := by
  obtain ⟨n, hn, hp⟩ := h
  unfold unlink
  simp only [hn, Option.bind_some, hp]

/-- Unlinking a node takes its parent away from it, and it away from everybody's children. -/
theorem get?_unlink (ht : t.Linked) (id k : Handle) :
    (t.unlink id).get? k = (t.get? k).map fun n =>
      { n with
        parent := if k = id then none else n.parent
        children := n.children.filter (· ≠ id) } := by
  cases hn : t.get? k with
  | none =>
    by_cases h : ∃ p, t.Hangs id p
    · obtain ⟨p, hp⟩ := h
      obtain ⟨m, hm⟩ := hp.live
      have hki : k ≠ id := by
        rintro rfl
        rw [hn] at hm
        exact absurd hm (by simp)
      rw [unlink_of_hangs hp, get?_update, if_neg hki, get?_update]
      split
      · next hkp => rw [← hkp, hn, Option.map_none]
      · exact hn
    · rw [unlink_of_orphan (not_exists.mp h), hn, Option.map_none]
  | some n =>
    -- only the parent lists the node, so nobody else's children change
    have hkeep : ¬ t.Hangs id k → n.children.filter (· ≠ id) = n.children := fun hk =>
      congrArg Node.children (filter_children_ne fun hmem =>
        hk (ht.hangs_of_lists k id ⟨n, hn, hmem⟩))
    rw [Option.map_some]
    by_cases h : ∃ p, t.Hangs id p
    · obtain ⟨p, hp⟩ := h
      have hne : id ≠ p := ht.ne_of_hangs hp
      rw [unlink_of_hangs hp, get?_update, get?_update, get?_update]
      by_cases hki : k = id
      · subst hki
        rw [if_pos rfl, if_neg hne, hn, if_pos rfl, hkeep fun h => ht.ne_of_hangs h rfl]
        rfl
      · rw [if_neg hki, if_neg hki]
        by_cases hkp : k = p
        · rw [if_pos hkp, ← hkp, hn]
          rfl
        · rw [if_neg hkp, hn, hkeep fun h => hkp (h.unique hp)]
    · have hno := not_exists.mp h
      rw [unlink_of_orphan hno, hn, hkeep (hno k)]
      by_cases hki : k = id
      · have hpar : n.parent = none := by
          cases hp : n.parent with
          | none => rfl
          | some p => exact absurd ⟨n, hki ▸ hn, hp⟩ (hno p)
        rw [if_pos hki, ← hpar]
      · rw [if_neg hki]

/-- Isolating takes the parent and the children from the nodes listed, and nothing from others. -/
theorem get?_isolate (t : Tree) (ids : List Handle) (k : Handle) :
    (t.isolate ids).get? k = (t.get? k).map fun n =>
      if k ∈ ids then { n with parent := none, children := [] } else n := by
  unfold isolate
  induction ids generalizing t with
  | nil => simp
  | cons id ids ih =>
    rw [List.foldl_cons, ih, get?_update]
    by_cases hk : k = id
    · subst hk
      rw [if_pos rfl]
      cases t.get? k <;> by_cases hm : k ∈ ids <;> simp [hm]
    · rw [if_neg hk]
      by_cases hm : k ∈ ids <;> simp [hk, hm]

@[simp] theorem root_isolate (t : Tree) (ids : List Handle) : (t.isolate ids).root = t.root := by
  unfold isolate
  induction ids generalizing t with
  | nil => rfl
  | cons id ids ih => rw [List.foldl_cons, ih]; rfl

end StyleTree.Tree
