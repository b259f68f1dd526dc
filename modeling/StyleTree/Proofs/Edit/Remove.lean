import StyleTree.Proofs.Edit.Place
import StyleTree.Proofs.Tree.Cut
import StyleTree.Proofs.Tree.Reach

/-!
# What removing a node leaves

Removing a node cuts the very links that lead to the nodes to be cut off.  They are collected before
the first link goes, so what is cut off is everything that was reached from the node, and nothing
else.

* `remove_effect`: the outcome, node by node.  What was reached from the node is still there, with
  its attributes and its data but with no links; the parent has lost the node; nobody else has
  changed.
* `prune_of_isolated`: a node without links is removed by doing nothing, so removing any of these
  nodes again leaves the tree as it is, down to the slots of its arena.
-/

namespace StyleTree

namespace Tree

variable [Data] {t : Tree} {id p k : Handle} {n np : Node}

/-- A node without children is all that is at and below it. -/
theorem below_of_childless (ht : t.Linked) (hid : t.get? id = some n) (hn : n.children = []) :
    t.below id = [(id, n)] := by
  have hshows : t.Shows ⟨id, n, []⟩ := Shows.mk hid hn.symm (by simp)
  exact (hshows.below_eq ht).trans (Branch.entries_mk id n [])

/-- A node that has no links is pruned by doing nothing. -/
theorem prune_of_isolated (ht : t.Linked) (hid : t.get? id = some n) (hparent : n.parent = none)
    (hn : n.children = []) : t.prune id = t := by
  have horphan : ∀ p, ¬ t.Hangs id p := by
    rintro p ⟨m, hm, hp⟩
    rw [hid] at hm
    cases hm
    rw [hparent] at hp
    exact absurd hp (by simp)
  have hfixed : { n with parent := none, children := [] } = n := by
    rw [← hparent, ← hn]
  have harena : t.arena.modify id (fun n => { n with parent := none, children := [] }) = t.arena :=
    Arena.modify_of_fixed hid hfixed
  unfold prune
  rw [unlink_of_orphan horphan, below_of_childless ht hid hn]
  show (⟨t.arena.modify id _, t.root⟩ : Tree) = t
  rw [harena]

/-- The parent of a node that is pruned loses it. -/
theorem get?_prune_of_hangs (ht : t.Linked) (hid : t.get? id = some n) (hparent : n.parent = some p)
    (hp : t.get? p = some np) :
    (t.prune id).get? p = some { np with children := np.children.filter (· ≠ id) } := by
  have habove : ¬ t.Beneath p id := ht.not_beneath_of_hangs ⟨n, hid, hparent⟩
  rw [get?_prune_of_not_beneath ht hid habove, hp, Option.map_some]

/-- Who is not beneath a node and not its parent is not concerned when it is pruned. -/
theorem get?_prune_of_other (ht : t.Linked) (hid : t.get? id = some n) (hk : ¬ t.Beneath k id)
    (hparent : n.parent ≠ some k) : (t.prune id).get? k = t.get? k := by
  have hnot : ¬ t.Hangs id k := by
    rintro ⟨m, hm, hmk⟩
    rw [hid] at hm
    cases hm
    exact hparent hmk
  have hcut : (t.cut [id]).get? k = t.get? k :=
    get?_cut_of_not_lists ht (by simp [hid]) (by simpa using hk) (by simpa using hnot)
  exact hcut

end Tree

namespace Edit

open StyleTree.Tree StyleTree.Action

section General

variable [Data] {t : Tree} {id : Handle} {n : Node}

/-- Removing a node succeeds and prunes it. -/
theorem remove_eq (hid : t.get? id = some n) :
    ((remove id).run t).result = .ok id ∧ ((remove id).run t).state = t.prune id := by
  have hyields : (remove id).Yields t (fun r t' => r = id ∧ t' = t.prune id) fun _ _ => False := by
    refine yields_remove.mono (fun r t' h => ⟨h.1, h.2.2⟩) fun e t' h => ?_
    rw [hid] at h
    exact absurd h.1 (by simp)
  obtain ⟨r, hresult, rfl, hstate⟩ := hyields.exists_ok
  exact ⟨hresult, hstate⟩

/-- Removing a node of a reachable tree.  It succeeds.  Every node that child links reached from it
is still there and has kept everything but its links, of which it has none; the parent lists what it
listed without the node; every other handle gives what it gave.  Removing any of the nodes that were
reached once more succeeds too and leaves the tree exactly as it is. -/
theorem remove_effect (h : t.Reachable) (hid : t.get? id = some n) :
    let o := (remove id).run t
    o.result = .ok id ∧ o.state.root = t.root ∧
    (∀ x, t.Reaches id x → ∃ m, t.get? x = some m ∧
      o.state.get? x = some { m with parent := none, children := [] }) ∧
    (∀ p np, n.parent = some p → t.get? p = some np →
      o.state.get? p = some { np with children := np.children.filter (· ≠ id) }) ∧
    (∀ k, ¬ t.Reaches id k → n.parent ≠ some k → o.state.get? k = t.get? k) ∧
    ∀ x, t.Reaches id x →
      ((remove x).run o.state).result = .ok x ∧ ((remove x).run o.state).state = o.state := by
  intro o
  have ht := h.linked
  obtain ⟨hresult, hstate⟩ : o.result = .ok id ∧ o.state = t.prune id := remove_eq hid
  have hreached : ∀ x, t.Reaches id x → ∃ m, t.get? x = some m ∧
      o.state.get? x = some { m with parent := none, children := [] } := by
    intro x hx
    obtain ⟨m, hm⟩ := ht.live_of_reaches hid hx
    refine ⟨m, hm, ?_⟩
    rw [hstate, get?_prune_of_beneath ht hid (ht.beneath_of_reaches hx), hm, Option.map_some]
  refine ⟨hresult, ?_, hreached, ?_, ?_, ?_⟩
  · rw [hstate, root_prune]
  · intro p np hparent hp
    rw [hstate, get?_prune_of_hangs ht hid hparent hp]
  · intro k hk hparent
    rw [ht.reaches_iff hid] at hk
    rw [hstate, get?_prune_of_other ht hid hk hparent]
  · intro x hx
    obtain ⟨m, -, hm⟩ := hreached x hx
    have hlinked : o.state.Linked := hstate ▸ ht.prune hid
    obtain ⟨hagain, hsame⟩ := remove_eq hm
    exact ⟨hagain, hsame.trans (prune_of_isolated hlinked hm rfl rfl)⟩

end General

/-- A rule with two declarations is removed from a tree of two rules. -/
theorem remove_effect_rule :
    let t := twoRules
    let o := (remove ⟨2, 1⟩).run t
    t.Reachable ∧ o.result = .ok ⟨2, 1⟩ ∧
      (o.state.get? ⟨3, 1⟩).map Node.parent = some none ∧
      (o.state.get? ⟨3, 1⟩).map Node.name = some (some "x") ∧
      (o.state.get? ⟨1, 1⟩).map Node.children = some [⟨5, 1⟩] ∧
      o.state.get? ⟨6, 1⟩ = t.get? ⟨6, 1⟩ ∧
      ((remove ⟨3, 1⟩).run o.state).state = o.state := by
  intro t o
  have ht := reachable_twoRules.linked
  obtain ⟨n, hn, hparent, hchildren⟩ : ∃ n, t.get? ⟨2, 1⟩ = some n ∧ n.parent = some ⟨1, 1⟩ ∧
      n.children = [⟨3, 1⟩, ⟨4, 1⟩] := ⟨_, rfl, rfl, rfl⟩
  obtain ⟨nr, hr, hroot⟩ : ∃ nr, t.get? ⟨1, 1⟩ = some nr ∧ nr.children = [⟨2, 1⟩, ⟨5, 1⟩] :=
    ⟨_, rfl, rfl⟩
  obtain ⟨nd, hd, hname⟩ : ∃ nd, t.get? ⟨3, 1⟩ = some nd ∧ nd.name = some "x" := ⟨_, rfl, rfl⟩
  have hlists : t.Lists ⟨2, 1⟩ ⟨3, 1⟩ := ⟨n, hn, by rw [hchildren]; decide⟩
  have hreaches : t.Reaches ⟨2, 1⟩ ⟨3, 1⟩ := Relation.ReflTransGen.single hlists
  have hother : ¬ t.Reaches ⟨2, 1⟩ ⟨6, 1⟩ := by
    rw [ht.reaches_iff hn, ← ht.isAbove_iff hn]
    decide +kernel
  obtain ⟨hresult, -, hbelow, hup, hframe, hagain⟩ := remove_effect reachable_twoRules hn
  obtain ⟨m, hm, hm'⟩ := hbelow ⟨3, 1⟩ hreaches
  obtain rfl : nd = m := Option.some.inj (hd.symm.trans hm)
  refine ⟨reachable_twoRules, hresult, ?_, ?_, ?_, ?_, (hagain ⟨3, 1⟩ hreaches).2⟩
  · rw [hm', Option.map_some]
  · rw [hm', Option.map_some, hname]
  · rw [hup ⟨1, 1⟩ nr hparent hr, Option.map_some, hroot]
    rfl
  · exact hframe ⟨6, 1⟩ hother (by rw [hparent]; decide)

end Edit

end StyleTree
