import StyleTree.Proofs.Reachable

/-!
# What only compaction takes away

Compaction apart, everything that edits do to the slots of a tree comes down to two operations: a
new node is inserted, or a node is changed where it is.  So a property of trees that these two keep,
whatever the node and whatever the change, is kept by every edit but compaction, whether it succeeds
or fails.  Nothing has to be known about the links for that.

* `Robust`: the properties that insertion and change keep.
* `Robust.grow`, `Robust.link`, `Robust.unlink`, `Robust.prune`: the operations made of the two.
* `Edit.Public.keeps_or_compacts`: an edit keeps a robust property or is compaction.
* `Edit.Public.freed_or_compacts`: an edit frees nothing or is compaction.
-/

namespace StyleTree

open StyleTree.Tree StyleTree.Action

variable [Data]

namespace Tree

variable {t : Tree} {P : Tree → Prop}

/-- New nodes and changes of nodes keep the property. -/
structure Robust (P : Tree → Prop) : Prop where
  insert : ∀ t node, P t → P (t.insert node)
  update : ∀ t id f, P t → P (t.update id f)

namespace Robust

variable (hP : Robust P)
include hP

theorem link (h : P t) (p c : Handle) (position : Option Nat) : P (t.link p c position) :=
  hP.update _ _ _ (hP.update _ _ _ h)

theorem unlink (h : P t) (id : Handle) : P (t.unlink id) := by
  unfold Tree.unlink
  split
  · exact hP.update _ _ _ (hP.update _ _ _ h)
  · exact h

theorem prune (h : P t) (id : Handle) : P (t.prune id) :=
  List.foldlRecOn _ _ (hP.unlink h id) fun t ht c _ => hP.update t c _ ht

mutual

theorem grow (t : Tree) (spec : Spec) (h : P t) : P (t.grow spec) := by
  obtain ⟨kind, name, value, block, children⟩ := spec
  rw [Tree.grow]
  exact growAll _ _ children (hP.insert _ _ h)

theorem growAll (t : Tree) (parent : Handle) (specs : List Spec) (h : P t) :
    P (t.growAll parent specs) := by
  match specs with
  | [] =>
    rw [Tree.growAll]
    exact h
  | spec :: rest =>
    rw [Tree.growAll]
    exact growAll _ parent rest (hP.link (grow t spec h) _ _ _)

end

end Robust

end Tree

namespace Edit

variable {α : Type} {P : Tree → Prop}

/-! ## Edits made of the two operations -/

theorem keeps_node (id : Handle) : (node id).Keeps P :=
  fun _ ht => yields_node.mpr ⟨fun _ _ => ht, fun _ => ht⟩

theorem keeps_ofExcept (r : Except Fault α) : (Action.ofExcept r : Edit α).Keeps P := by
  intro t ht
  rw [yields_ofExcept]
  split <;> exact ht

theorem keeps_read (text : String) : (read text : Edit (List Spec)).Keeps P :=
  (keeps_ofExcept _).bind fun _ => (Holds.report _).bind fun _ => Holds.pure _

section

variable (hP : Robust P)
include hP

theorem keeps_create (kind : Kind) : (create kind).Keeps P :=
  Holds.get.bind fun _ => (Holds.modify fun _ ht => hP.insert _ _ ht).bind fun _ =>
    (Holds.report _).bind fun _ => Holds.pure _

theorem keeps_plant (spec : Spec) : (plant spec).Keeps P :=
  Holds.get.bind fun _ => (Holds.modify fun _ ht => hP.grow _ spec ht).bind fun _ => Holds.pure _

theorem keeps_plantText (parent : Handle) (text : String) : (plantText parent text).Keeps P := by
  refine (keeps_node parent).bind fun n => (keeps_read text).bind fun specs => ?_
  cases specs with
  | nil => exact Keeps.fail _
  | cons spec rest => exact keeps_plant hP spec

theorem keeps_mapM_plantText (parent : Handle) (texts : List String) :
    (texts.mapM (plantText parent)).Keeps P := by
  induction texts with
  | nil => exact Holds.pure _
  | cons text texts ih =>
    rw [List.mapM_cons]
    exact (keeps_plantText hP parent text).bind fun _ => ih.bind fun _ => Holds.pure _

theorem keeps_copy (id : Handle) : (copy id).Keeps P := by
  refine (keeps_node id).bind fun source => Holds.get.bind fun _ =>
    (keeps_ofExcept _).bind fun text => ?_
  have hplant : ∀ spec, Action.Keeps P (do
      let clone ← plant spec
      Action.report (.clonedNode id clone)
      return clone) := fun spec =>
    (keeps_plant hP spec).bind fun _ => (Holds.report _).bind fun _ => Holds.pure _
  split
  · exact (Holds.pure _).bind hplant
  · exact ((keeps_read text).bind fun _ => keeps_ofExcept _).bind hplant

theorem keeps_change (id : Handle) (f : Node → Node) : (change id f).Keeps P :=
  (keeps_node id).bind fun _ => Holds.modify fun _ ht => hP.update _ _ _ ht

theorem keeps_removeDatum (id : Handle) (key : String) : (removeDatum id key).Keeps P :=
  (keeps_node id).bind fun _ => (Holds.modify fun _ ht => hP.update _ _ _ ht).bind fun _ =>
    Holds.pure _

theorem keeps_add (parent : Handle) (child : Child) (index : Option Nat) (after : Bool) :
    (add parent child index after).Keeps P := by
  have hplace : ∀ id, Action.Keeps P (do
      let _ ← node id
      if (← Action.get).isAbove id parent then Action.fail .circularParentage
      else
        Action.modify (·.unlink id)
        let position := placement (← node parent).children.length index after
        Action.modify (·.link parent id position)
        Action.report (.addedNode parent id position)
        return id) := by
    intro id
    refine (keeps_node id).bind fun _ => Holds.get.bind fun _ => ?_
    split
    · exact Keeps.fail _
    · exact (Holds.modify fun _ ht => hP.unlink ht _).bind fun _ =>
        (keeps_node parent).bind fun _ =>
        (Holds.modify fun _ ht => hP.link ht _ _ _).bind fun _ => (Holds.report _).bind fun _ =>
          Holds.pure _
  refine (keeps_node parent).bind fun _ => ?_
  cases child with
  | node id => exact (Holds.pure id).bind hplace
  | text text => exact (keeps_plantText hP parent text).bind hplace

theorem keeps_insertBeside (after : Bool) (id : Handle) (child : Child) :
    (insertBeside after id child).Keeps P := by
  refine (keeps_node id).bind fun _ => Holds.get.bind fun t => ?_
  split
  · next parent index _ =>
    rw [← bind_pure_comp]
    exact (keeps_add hP parent child (some index) after).bind fun _ => Holds.pure _
  · exact Holds.pure _

theorem keeps_remove (id : Handle) : (remove id).Keeps P :=
  (keeps_node id).bind fun _ => (Holds.modify fun _ ht => hP.prune ht id).bind fun _ =>
    (Holds.report _).bind fun _ => Holds.pure _

theorem keeps_replaceWith (id : Handle) (child : Child) : (replaceWith id child).Keeps P := by
  refine (keeps_node id).bind fun _ => Holds.get.bind fun t => ?_
  split
  · next parent index _ =>
    rw [← bind_pure_comp]
    exact (keeps_remove hP id).bind fun _ =>
      (keeps_add hP parent child (some index) false).bind fun _ => Holds.pure _
  · exact Holds.pure _

theorem keeps_replaceContent (id : Handle) (texts : List String) :
    (replaceContent id texts).Keeps P := by
  refine (keeps_node id).bind fun _ => (keeps_mapM_plantText hP id texts).bind fun children =>
    (keeps_node id).bind fun _ => Holds.modify fun t ht => ?_
  -- the old children let go, then the new ones linked
  refine List.foldlRecOn _ _ ?_ fun t ht c _ => hP.link ht id c none
  exact List.foldlRecOn _ _ (hP.update _ _ _ ht) fun t ht c _ => hP.update t c _ ht

/-- An edit keeps a property that insertion and change keep, unless it is compaction. -/
theorem Public.keeps_or_compacts {x : Edit α} (hx : x.Public) :
    x.Keeps P ∨ (⟨α, x⟩ : Sigma Edit) = ⟨Nat, Edit.compact⟩ := by
  cases hx with
  | create kind => exact Or.inl (keeps_create hP kind)
  | plant spec => exact Or.inl (keeps_plant hP spec)
  | plantText parent text => exact Or.inl (keeps_plantText hP parent text)
  | copy id => exact Or.inl (keeps_copy hP id)
  | setName id name => exact Or.inl (keeps_change hP id _)
  | setValue id value => exact Or.inl (keeps_change hP id _)
  | setFamily id family => exact Or.inl (keeps_change hP id _)
  | setDatum id key datum => exact Or.inl (keeps_change hP id _)
  | removeDatum id key => exact Or.inl (keeps_removeDatum hP id key)
  | add parent child index after => exact Or.inl (keeps_add hP parent child index after)
  | append parent child => exact Or.inl (keeps_add hP parent child none false)
  | prepend parent child => exact Or.inl (keeps_add hP parent child (some 0) false)
  | insertBefore id child => exact Or.inl (keeps_insertBeside hP false id child)
  | insertAfter id child => exact Or.inl (keeps_insertBeside hP true id child)
  | copyBefore id =>
    exact Or.inl ((keeps_copy hP id).bind fun _ => keeps_insertBeside hP false id _)
  | copyAfter id =>
    exact Or.inl ((keeps_copy hP id).bind fun _ => keeps_insertBeside hP true id _)
  | copyPrefixed id affix =>
    exact Or.inl ((keeps_node id).bind fun _ => (keeps_copy hP id).bind fun _ =>
      (keeps_change hP _ _).bind fun _ => (Holds.report _).bind fun _ =>
        keeps_insertBeside hP false id _)
  | replaceWith id child => exact Or.inl (keeps_replaceWith hP id child)
  | remove id => exact Or.inl (keeps_remove hP id)
  | detach id =>
    exact Or.inl ((keeps_node id).bind fun _ => (Holds.modify fun _ ht => hP.unlink ht id).bind
      fun _ => Holds.pure _)
  | replaceContent id texts => exact Or.inl (keeps_replaceContent hP id texts)
  | compact => exact Or.inr rfl

end

/-! ## Handles that are freed -/

theorem robust_freed (t : Tree) :
    Robust fun u => u.arena.Sound ∧ ∀ k, u.arena.Freed k → t.arena.Freed k where
  insert := fun _ node h => ⟨h.1.insert node, fun k hk => h.2 k (hk.of_insert h.1)⟩
  update := fun _ id f h => ⟨h.1.modify id f, fun k hk => h.2 k hk.of_modify⟩

/-- An edit frees no handle, unless it is compaction. -/
theorem Public.freed_or_compacts {x : Edit α} (hx : x.Public) {t : Tree} (ht : t.arena.Sound) :
    (∀ k, (x.run t).state.arena.Freed k → t.arena.Freed k) ∨ (x.run t).state = t.compact := by
  rcases hx.keeps_or_compacts (robust_freed t) with hkeeps | hcompact
  · exact Or.inl (hkeeps.state ⟨ht, fun _ hk => hk⟩).2
  · cases hcompact
    exact Or.inr rfl

end Edit

end StyleTree
