import StyleTree.Proofs.Tree.Links

/-!
# What child links reach

The order beneath follows the parents' names upwards.  A program that goes through a tree follows
the lists of children downwards.  In a linked tree the two ways are the same from every node on: the
one edge that is kept by its child alone starts at a freed handle, and no list leads there.

* `Reaches t id x`: child links lead from `id` to `x`.
* `Linked.reaches_iff`: what is reached from a node is what is beneath it.
-/

namespace StyleTree.Tree

open Relation

variable [Data] {t : Tree} {id x : Handle} {n : Node}

/-- Child links lead from the first node to the second, in any number of steps. -/
def Reaches (t : Tree) : Handle → Handle → Prop :=
  ReflTransGen t.Lists

theorem Linked.beneath_of_reaches (ht : t.Linked) (h : t.Reaches id x) : t.Beneath x id := by
  induction h with
  | refl => exact Beneath.refl t id
  | tail _ hl ih => exact (Beneath.of_hangs (ht.hangs_of_lists _ _ hl)).trans ih

/-- What is reached from a node is what is beneath it. -/
theorem Linked.reaches_iff (ht : t.Linked) (hid : t.get? id = some n) :
    t.Reaches id x ↔ t.Beneath x id := by
  refine ⟨ht.beneath_of_reaches, fun h => ?_⟩
  induction h using ReflTransGen.head_induction_on with
  | refl => exact ReflTransGen.refl
  | head hh hb ih =>
    obtain ⟨m, hm⟩ := live_of_beneath hb hid
    exact ih.tail (ht.lists_of_hangs_of_live hh hm)

/-- What is reached from a node is a node. -/
theorem Linked.live_of_reaches (ht : t.Linked) (hid : t.get? id = some n) (h : t.Reaches id x) :
    ∃ m, t.get? x = some m :=
  live_of_beneath (ht.beneath_of_reaches h) hid

end StyleTree.Tree
