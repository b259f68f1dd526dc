import StyleTree.Proofs.Tree.Grow

/-!
# Several branches cut off

Pruning nodes one after the other has an effect that does not depend on the order, and that can be
read off the tree before the first of them was pruned: what is beneath one of the nodes is isolated,
and everybody else has lost them from the list of children.

* `cut t ps`: the tree with the nodes `ps` pruned in turn.
* `get?_cut_of_beneath`, `get?_cut_of_not_beneath`: what becomes of each node.
* `beneath_cut`, `eq_of_beneath_cut`: which ways up are left.
* `get?_cut_of_not_lists`: who is not concerned at all.
-/

namespace StyleTree.Tree

open Relation

variable [Data] {t : Tree} {id p x y : Handle} {n : Node} {ps : List Handle} {b : Branch}

/-- The tree with nodes pruned in turn. -/
def cut (t : Tree) (ps : List Handle) : Tree :=
  ps.foldl prune t

@[simp] theorem cut_nil (t : Tree) : t.cut [] = t := rfl

theorem cut_cons (t : Tree) (p : Handle) (ps : List Handle) :
    t.cut (p :: ps) = (t.prune p).cut ps :=
  rfl

theorem cut_append (t : Tree) (ps qs : List Handle) : t.cut (ps ++ qs) = (t.cut ps).cut qs :=
  List.foldl_append

/-- Pruning leaves the ways up of what is not beneath the node, and no other ways. -/
theorem beneath_prune (ht : t.Linked) (hp : t.get? p = some n) (hx : ¬ t.Beneath x p) :
    (t.prune p).Beneath x y ↔ t.Beneath x y := by
  constructor
  · exact fun h => ReflTransGen.mono (fun _ _ hh => ((hangs_prune ht hp).mp hh).1) x y h
  · intro h
    induction h using ReflTransGen.head_induction_on with
    | refl => exact Beneath.refl _ _
    | head hh _ ih =>
      have hz := fun hb => hx ((Beneath.of_hangs hh).trans hb)
      exact (Beneath.of_hangs ((hangs_prune ht hp).mpr ⟨hh, hx⟩)).trans (ih hz)

theorem live_prune (ht : t.Linked) (hp : t.get? p = some n) (hx : ∃ m, t.get? x = some m) :
    ∃ m, (t.prune p).get? x = some m := by
  obtain ⟨m, hm⟩ := hx
  rw [get?_prune ht hp, hm]
  exact ⟨_, rfl⟩

theorem Linked.cut (ht : t.Linked) (hps : ∀ p ∈ ps, ∃ n, t.get? p = some n) :
    (t.cut ps).Linked := by
  induction ps generalizing t with
  | nil => exact ht
  | cons p ps ih =>
    obtain ⟨n, hn⟩ := hps p (List.mem_cons_self ..)
    exact ih (ht.prune hn) fun q hq => live_prune ht hn (hps q (List.mem_cons_of_mem _ hq))

@[simp] theorem root_cut (t : Tree) (ps : List Handle) : (t.cut ps).root = t.root := by
  induction ps generalizing t with
  | nil => rfl
  | cons p ps ih => rw [cut_cons, ih, root_prune]

theorem get?_prune_of_beneath (ht : t.Linked) (hp : t.get? p = some n) (hx : t.Beneath x p) :
    (t.prune p).get? x = (t.get? x).map fun n => { n with parent := none, children := [] } := by
  rw [get?_prune ht hp]
  simp only [if_pos ((ht.mem_below_iff hp).mpr hx)]

theorem get?_prune_of_not_beneath (ht : t.Linked) (hp : t.get? p = some n) (hx : ¬ t.Beneath x p) :
    (t.prune p).get? x = (t.get? x).map fun n =>
      { n with children := n.children.filter (· ≠ p) } := by
  rw [get?_prune ht hp]
  simp only [if_neg fun h => hx ((ht.mem_below_iff hp).mp h)]

/-- What is beneath none of the nodes has lost them from its children. -/
theorem get?_cut_of_not_beneath (ht : t.Linked) (hps : ∀ p ∈ ps, ∃ n, t.get? p = some n)
    (hx : ∀ p ∈ ps, ¬ t.Beneath x p) :
    (t.cut ps).get? x = (t.get? x).map fun n =>
      { n with children := n.children.filter fun c => c ∉ ps } := by
  induction ps generalizing t with
  | nil => cases h : t.get? x <;> simp [h]
  | cons p ps ih =>
    obtain ⟨n, hn⟩ := hps p (List.mem_cons_self ..)
    have hxp := hx p (List.mem_cons_self ..)
    rw [cut_cons, ih (ht.prune hn), get?_prune_of_not_beneath ht hn hxp, Option.map_map]
    · congr 1
      funext m
      simp [List.filter_filter, Bool.and_comm]
    · exact fun q hq => live_prune ht hn (hps q (List.mem_cons_of_mem _ hq))
    · intro q hq
      rw [beneath_prune ht hn hxp]
      exact hx q (List.mem_cons_of_mem _ hq)

/-- What is beneath one of the nodes is isolated. -/
theorem get?_cut_of_beneath (ht : t.Linked) (hps : ∀ p ∈ ps, ∃ n, t.get? p = some n) (hp : p ∈ ps)
    (hx : t.Beneath x p) :
    (t.cut ps).get? x = (t.get? x).map fun n => { n with parent := none, children := [] } := by
  induction ps generalizing t p with
  | nil => exact absurd hp (by simp)
  | cons q ps ih =>
    obtain ⟨n, hn⟩ := hps q (List.mem_cons_self ..)
    have hlive : ∀ r ∈ ps, ∃ m, (t.prune q).get? r = some m := fun r hr =>
      live_prune ht hn (hps r (List.mem_cons_of_mem _ hr))
    rw [cut_cons]
    by_cases hxq : t.Beneath x q
    · have hget := get?_prune_of_beneath ht hn hxq
      -- isolated once, the node has nothing more to lose
      by_cases hr : ∃ r ∈ ps, (t.prune q).Beneath x r
      · obtain ⟨r, hr, hxr⟩ := hr
        rw [ih (ht.prune hn) hlive hr hxr, hget, Option.map_map]
        rfl
      · rw [get?_cut_of_not_beneath (ht.prune hn) hlive fun r hr' hxr => hr ⟨r, hr', hxr⟩, hget,
          Option.map_map]
        rfl
    · have hp' : p ∈ ps := by
        rcases List.mem_cons.mp hp with rfl | hp'
        · exact absurd hx hxq
        · exact hp'
      rw [ih (ht.prune hn) hlive hp' ((beneath_prune ht hn hxq).mpr hx),
        get?_prune_of_not_beneath ht hn hxq, Option.map_map]
      rfl

/-- The ways up of what is beneath none of the nodes are left. -/
theorem beneath_cut (ht : t.Linked) (hps : ∀ p ∈ ps, ∃ n, t.get? p = some n)
    (hx : ∀ p ∈ ps, ¬ t.Beneath x p) : (t.cut ps).Beneath x y ↔ t.Beneath x y := by
  induction ps generalizing t with
  | nil => rfl
  | cons p ps ih =>
    obtain ⟨n, hn⟩ := hps p (List.mem_cons_self ..)
    have hxp := hx p (List.mem_cons_self ..)
    rw [cut_cons, ih (ht.prune hn), beneath_prune ht hn hxp]
    · exact fun q hq => live_prune ht hn (hps q (List.mem_cons_of_mem _ hq))
    · intro q hq
      rw [beneath_prune ht hn hxp]
      exact hx q (List.mem_cons_of_mem _ hq)

/-- What is beneath one of the nodes has no way up. -/
theorem eq_of_beneath_cut (ht : t.Linked) (hps : ∀ p ∈ ps, ∃ n, t.get? p = some n) (hp : p ∈ ps)
    (hx : t.Beneath x p) (h : (t.cut ps).Beneath x y) : x = y := by
  by_contra hne
  obtain ⟨q, ⟨m, hm, hmq⟩, -⟩ := h.hangs_of_ne hne
  rw [get?_cut_of_beneath ht hps hp hx] at hm
  obtain ⟨m', -, rfl⟩ := Option.map_eq_some_iff.mp hm
  exact absurd hmq (by simp)

/-- A node that is beneath none of the nodes and is the parent of none is left as it is. -/
theorem get?_cut_of_not_lists (ht : t.Linked) (hps : ∀ p ∈ ps, ∃ n, t.get? p = some n)
    (hx : ∀ p ∈ ps, ¬ t.Beneath x p) (hl : ∀ p ∈ ps, ¬ t.Hangs p x) :
    (t.cut ps).get? x = t.get? x := by
  rw [get?_cut_of_not_beneath ht hps hx]
  cases hn : t.get? x with
  | none => rfl
  | some n =>
    have hkeep : n.children.filter (fun c => c ∉ ps) = n.children := by
      rw [List.filter_eq_self]
      intro c hc
      exact decide_eq_true fun hmem => hl c hmem (ht.hangs_of_lists x c ⟨n, hn, hc⟩)
    rw [Option.map_some, hkeep]

end StyleTree.Tree
