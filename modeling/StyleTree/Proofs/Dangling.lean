import StyleTree.Proofs.Edit.Lasting

/-!
# Parents that are gone

A node names its parent and the parent lists the node.  One edge can come to be kept once only.  The
root may be placed below another node, compaction frees what is not reached from the root, and what
is above the root is not reached from it.  So compaction frees the parent of a root that has one,
and leaves the root naming it.

Nothing else does that.  Every node but the root is reached through its parent, so compaction keeps
both or neither; and no other edit frees a node or lets a node hang from a freed handle.

* `Steps.hangs_of_freed`: what hangs from a freed handle has hung from it since it was freed.
* `Edits.exists_compact`: if the root hangs from a freed handle, then the tree was compacted at a
  time when the root hung from a node with that handle.
* `lists_iff_of_reachable`: every parent that is named lists the child unless that has happened; for
  all nodes but the root it holds in any case.
* `hungRoot_dangling`: it can happen.
-/

namespace StyleTree.Tree

open Relation

section General

variable [Data] {s t t' : Tree} {x p : Handle} {n : Node}

/-! ## Hanging from a freed handle -/

theorem Step.hangs_of_freed (h : Step t t') (ht : t.Linked) (hf : t.arena.Freed p)
    (hh : t'.Hangs x p) : t.Hangs x p := by
  cases h with
  | insert node hparent => exact (hangs_insert ht.sound hparent).mp hh
  | change id hf => exact (hangs_change hf.parent).mp hh
  | link q c position hq hc horphan _ hb =>
    have hne : c ≠ q := fun he => hb (he ▸ Beneath.refl t c)
    rcases (hangs_link hne hc horphan).mp hh with hh | ⟨-, rfl⟩
    · exact hh
    · -- a node is linked to a node only
      exact absurd (hq.symm.trans hf.get?_eq_none) (by simp)
  | unlink id => exact ((hangs_unlink ht).mp hh).1
  | prune id hid => exact ((hangs_prune ht hid).mp hh).1
  | release id hid => exact ((hangs_release ht hid).mp hh).1
  | compact => exact ((hangs_compact ht).mp hh).1

/-- What hangs from a freed handle has hung from it since it was freed. -/
theorem Steps.hangs_of_freed (h : Steps t t') (ht : t.Linked) (hf : t.arena.Freed p)
    (hh : t'.Hangs x p) : t.Hangs x p := by
  induction h with
  | refl => exact hh
  | tail hs h ih => exact ih (h.hangs_of_freed (Steps.linked hs ht) (Steps.freed hs ht hf) hh)

/-- What hangs from a freed handle after an edit has hung from it before, and either the handle was
freed then or the edit is compaction. -/
theorem hangs_of_public_of_freed {α : Type} {y : Edit α} (hy : y.Public) (ht : t.Linked)
    (hf : (y.run t).state.arena.Freed p) (hh : (y.run t).state.Hangs x p) :
    t.Hangs x p ∧ (t.arena.Freed p ∨ (y.run t).state = t.compact) := by
  rcases hy.freed_or_compacts ht.sound with hfrees | hcompact
  · have hp : t.arena.Freed p := hfrees p hf
    exact ⟨(hy.steps ht).hangs_of_freed ht hp hh, Or.inl hp⟩
  · rw [hcompact, hangs_compact ht] at hh
    exact ⟨hh.1, Or.inr hcompact⟩

/-! ## How the root comes to hang from a freed handle -/

/-- If the root hangs from a freed handle, the tree was compacted when the root hung from a node
with that handle. -/
theorem Edits.exists_compact (h : Edits s t) (hs : s.Linked) (horphan : ∀ p, ¬ s.Hangs s.root p)
    (hf : t.arena.Freed p) (hh : t.Hangs t.root p) :
    ∃ u m, Edits s u ∧ u.Hangs u.root p ∧ u.get? p = some m ∧ Edits u.compact t := by
  induction h with
  | refl => exact absurd hh (horphan p)
  | @tail t _ hst hy ih =>
    obtain ⟨α, y, hy, rfl⟩ := hy
    have ht : t.Linked := (Edits.steps hst hs).linked hs
    rw [(hy.steps ht).root] at hh
    obtain ⟨hbefore, hcause⟩ := hangs_of_public_of_freed hy ht hf hh
    -- the handle was freed earlier, or this edit frees it
    have hcause : t.arena.Freed p ∨ (∃ m, t.get? p = some m) ∧ (y.run t).state = t.compact := by
      rcases hcause with hfreed | hcompact
      · exact Or.inl hfreed
      · rcases ht.lists_of_hangs _ _ hbefore with hl | ⟨-, hfreed⟩
        · exact Or.inr ⟨hl.live, hcompact⟩
        · exact Or.inl hfreed
    rcases hcause with hfreed | ⟨⟨m, hm⟩, hcompact⟩
    · obtain ⟨u, m, hsu, hu, hm, hut⟩ := ih hfreed hbefore
      exact ⟨u, m, hsu, hu, hm, hut.tail ⟨α, y, hy, rfl⟩⟩
    · exact ⟨t, m, hst, hbefore, hm, hcompact ▸ ReflTransGen.refl⟩

/-- The tree of a stylesheet hangs from nothing. -/
theorem not_hangs_root_ofSpecs (specs : List Spec) (p : Handle) :
    ¬ (Tree.ofSpecs specs).Hangs (Tree.ofSpecs specs).root p := by
  have hempty : Tree.empty.get? Tree.empty.root = some (Node.fresh .root) := by
    rw [get?_empty, if_pos rfl]
  obtain ⟨bs, hbs⟩ := linked_empty.growAll specs hempty
  rintro ⟨n, hn, hp⟩
  rw [(steps_ofSpecs specs).root, Tree.ofSpecs, hbs.parent_eq] at hn
  cases hn
  exact absurd hp (by simp [Node.fresh])

/-- In a reachable tree every parent that a node other than the root names is a node that lists it.
The same holds of the root exactly if the tree was never compacted when the root hung from the
parent that it still names. -/
theorem lists_iff_of_reachable (h : t.Reachable) :
    (∀ x n p, x ≠ t.root → t.get? x = some n → n.parent = some p →
      ∃ m, t.get? p = some m ∧ x ∈ m.children) ∧
    ((∀ x n p, t.get? x = some n → n.parent = some p → ∃ m, t.get? p = some m ∧ x ∈ m.children) ↔
      ∀ (s : Tree) (p : Handle), s.Reachable → s.Hangs s.root p → (∃ m, s.get? p = some m) →
        Edits s.compact t → ¬ t.Hangs t.root p) := by
  have ht := h.linked
  refine ⟨fun x n p hne hn hp => ?_,
    ⟨fun hlisted s p hs hhangs hlive hst hh => ?_, fun hnever x n p hn hp => ?_⟩⟩
  · exact (ht.lists_of_hangs x p ⟨n, hn, hp⟩).resolve_right fun hroot => hne hroot.1
  · -- compaction freed the parent, and a freed handle stays freed
    obtain ⟨m, hm⟩ := hlive
    have hfreed := freed_compact hs.linked hm (hs.linked.not_beneath_of_hangs hhangs)
    have hdead := ((hst.steps hs.linked.compact).freed hs.linked.compact hfreed).get?_eq_none
    obtain ⟨n, hn, hp⟩ := hh
    obtain ⟨m', hm', -⟩ := hlisted t.root n p hn hp
    exact absurd (hm'.symm.trans hdead) (by simp)
  · rcases ht.lists_of_hangs x p ⟨n, hn, hp⟩ with hl | ⟨rfl, hfreed⟩
    · exact hl
    · obtain ⟨specs, hstart, hst⟩ := h.exists_edits
      obtain ⟨s, m, hs, hhangs, hm, hcompact⟩ := hst.exists_compact hstart.linked
        (not_hangs_root_ofSpecs specs) hfreed ⟨n, hn, hp⟩
      exact absurd ⟨n, hn, hp⟩ (hnever s p (hstart.edits hs) hhangs ⟨m, hm⟩ hcompact)

end General

/-- A client that hangs the root from a new rule, takes it off again and then frees the rule. -/
def freedRoot : Action (Workspace Unit) Nat := do
  let rule ← (Edit.create .rule).onWorkspace
  let root := (← Action.get).tree.root
  let _ ← (Edit.append rule (.node root)).onWorkspace
  let _ ← (Edit.detach root).onWorkspace
  Edit.compact.onWorkspace

/-- A root that was taken off its parent before the parent was freed names no parent, and every
parent that is named lists the child. -/
theorem lists_iff_of_freedRoot :
    let t := (freedRoot.run ⟨Tree.empty, ()⟩).state.tree
    t.Reachable ∧ t.arena.Freed ⟨2, 1⟩ ∧ (t.get? t.root).bind Node.parent = none ∧
      ∀ x n p, t.get? x = some n → n.parent = some p → ∃ m, t.get? p = some m ∧ x ∈ m.children := by
  intro t
  have hclient : Client freedRoot :=
    .bind (.edit (.create .rule)) fun rule => .bind .look fun w =>
      .bind (.edit (.append rule (.node w.tree.root))) fun _ =>
        .bind (.edit (.detach w.tree.root)) fun _ => .edit .compact
  have ht : t.Reachable := .run hclient .empty
  have hparent : (t.get? t.root).bind Node.parent = none := rfl
  have hfreed : t.arena.Freed ⟨2, 1⟩ := ⟨rfl, ⟨2, none⟩, rfl, by decide⟩
  refine ⟨ht, hfreed, hparent, (lists_iff_of_reachable ht).2.mpr fun s p _ _ _ _ hh => ?_⟩
  obtain ⟨n, hn, hp⟩ := hh
  rw [hn, Option.bind_some, hp] at hparent
  exact absurd hparent (by simp)

/-- A parent that is named need not be a node: the root that was hung from a rule still names the
rule after the rule has been freed. -/
theorem hungRoot_dangling :
    let t := (hungRoot.run ⟨Tree.empty, ()⟩).state.tree
    t.Reachable ∧ ∃ n, t.get? t.root = some n ∧ n.parent = some ⟨2, 1⟩ ∧ t.get? ⟨2, 1⟩ = none := by
  intro t
  have hclient : Client hungRoot :=
    .bind (.edit (.create .rule)) fun rule => .bind .look fun w =>
      .bind (.edit (.append rule (.node w.tree.root))) fun _ => .edit .compact
  exact ⟨.run hclient .empty, _, rfl, rfl, rfl⟩

end StyleTree.Tree
