import StyleTree.Proofs.Tree.Unfold

/-!
# The nearest node on the way up

Two questions are put to a node and everything above it: which enclosing node answers a query, and
which value is in force under a key.  Both are answered by the first node of the lineage that has
something to say, and the nodes further up are not asked.

A lineage is a list that is followed to a bounded length.  Here the first node is described without
the list, by the order beneath alone.

* `Nearest t P x a`: on the way up from `x` the node `a` is the first with the property `P`.
* `Nearest.unique`: there is one at most, because any two nodes above `x` are comparable.
* `Linked.findSome?_lineage_iff`: what is found along the lineage is what the nearest node says that
  says anything.
-/

namespace StyleTree.Tree

open Relation

variable [Data] {t : Tree} {P : Handle → Prop} {x a b p : Handle} {β : Type}
  {f : Handle × Node → Option β}
  {r : β}

/-- On the way up from `x` the node `a` is the first that has a property. -/
structure Nearest (t : Tree) (P : Handle → Prop) (x a : Handle) : Prop where
  beneath : t.Beneath x a
  holds : P a
  first : ∀ y, t.Beneath x y → t.Beneath y a → y ≠ a → ¬ P y

theorem Nearest.unique (h : t.Nearest P x a) (h' : t.Nearest P x b) : a = b := by
  by_contra hne
  rcases h.beneath.total h'.beneath with hab | hba
  · exact h'.first a h.beneath hab hne h.holds
  · exact h.first b h'.beneath hba (Ne.symm hne) h'.holds

/-- Where the ways up are the same and the same nodes have the property, the same node is the
nearest. -/
theorem nearest_congr {t' : Tree} {P' : Handle → Prop} (hb : ∀ x y, t'.Beneath x y ↔ t.Beneath x y)
    (hP : ∀ y, P' y ↔ P y) : t'.Nearest P' x a ↔ t.Nearest P x a := by
  constructor
  · rintro ⟨hxa, ha, hfirst⟩
    refine ⟨(hb x a).mp hxa, (hP a).mp ha, fun y hxy hya hne hy => ?_⟩
    exact hfirst y ((hb x y).mpr hxy) ((hb y a).mpr hya) hne ((hP y).mpr hy)
  · rintro ⟨hxa, ha, hfirst⟩
    refine ⟨(hb x a).mpr hxa, (hP a).mpr ha, fun y hxy hya hne hy => ?_⟩
    exact hfirst y ((hb x y).mp hxy) ((hb y a).mp hya) hne ((hP y).mp hy)

/-- A node that has the property is the nearest one to itself. -/
theorem Linked.nearest_self (ht : t.Linked) (hx : P x) : t.Nearest P x x := by
  refine ⟨Beneath.refl t x, hx, fun y hxy hyx hne => ?_⟩
  exact absurd (ht.eq_of_beneath_of_beneath hyx hxy) hne

/-- A node that does not have the property leaves the answer to its parent. -/
theorem Nearest.of_parent (hx : ¬ P x) (hp : t.Hangs x p) (h : t.Nearest P p a) :
    t.Nearest P x a := by
  refine ⟨(Beneath.of_hangs hp).trans h.beneath, h.holds, fun y hxy hya hne => ?_⟩
  by_cases he : x = y
  · exact he ▸ hx
  · exact h.first y (hxy.parent he hp) hya hne

/-- What the node at a handle says to a question, if there is a node and it says anything. -/
def ask (t : Tree) (f : Handle × Node → Option β) (x : Handle) : Option β :=
  (t.get? x).bind fun n => f (x, n)

theorem nearest_of_findSome?_lineageFrom (ht : t.Linked) {k : Nat}
    (h : (t.lineageFrom k x).findSome? f = some r) :
    ∃ a, t.Nearest (fun y => t.ask f y ≠ none) x a ∧ t.ask f a = some r := by
  induction k generalizing x with
  | zero => exact absurd h (by simp [lineageFrom])
  | succ k ih =>
    rw [lineageFrom] at h
    cases hx : t.get? x with
    | none =>
      rw [hx] at h
      exact absurd h (by simp)
    | some n =>
      have hask : t.ask f x = f (x, n) := by rw [ask, hx, Option.bind_some]
      rw [hx] at h
      dsimp only at h
      rw [List.findSome?_cons] at h
      cases hf : f (x, n) with
      | some r' =>
        rw [hf] at h
        have hself : t.ask f x = some r := hask.trans (hf.trans h)
        exact ⟨x, ht.nearest_self (by simp [hself]), hself⟩
      | none =>
        rw [hf] at h
        dsimp only at h
        cases hp : n.parent with
        | none =>
          rw [hp] at h
          exact absurd h (by simp)
        | some p =>
          rw [hp] at h
          obtain ⟨a, hnear, ha⟩ := ih h
          exact ⟨a, hnear.of_parent (by simp [hask, hf]) ⟨n, hx, hp⟩, ha⟩

/-- Along a lineage one finds what the nearest node says that says anything. -/
theorem Linked.findSome?_lineage_iff (ht : t.Linked) :
    (t.lineage x).findSome? f = some r ↔
      ∃ a, t.Nearest (fun y => t.ask f y ≠ none) x a ∧ t.ask f a = some r := by
  refine ⟨nearest_of_findSome?_lineageFrom ht, ?_⟩
  rintro ⟨a, hnear, ha⟩
  obtain ⟨n, hn, hf⟩ := Option.bind_eq_some_iff.mp ha
  -- the nearest node is in the lineage, so something is found, and it is found at the nearest node
  have hmem : (a, n) ∈ t.lineage x := ht.mem_lineage_iff.mpr ⟨hnear.beneath, hn⟩
  have hfound : ((t.lineage x).findSome? f).isSome = true :=
    List.findSome?_isSome_iff.mpr ⟨(a, n), hmem, by rw [hf]; rfl⟩
  obtain ⟨r', hr'⟩ := Option.isSome_iff_exists.mp hfound
  obtain ⟨a', hnear', ha'⟩ := nearest_of_findSome?_lineageFrom ht hr'
  obtain rfl : a' = a := hnear'.unique hnear
  rw [hr', ← ha', ha]

end StyleTree.Tree
