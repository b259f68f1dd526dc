import StyleTree.Proofs.Edit.Place
import StyleTree.Proofs.Tree.Cut
import StyleTree.Proofs.Tree.Sprout

/-!
# What comes in place of a node

Replacing a node is removing it and then placing the child at the index that the node had.  Removal
isolates everything beneath the node.  A child that has lain beneath the node, so that replacing
unwraps it, is isolated with the rest and arrives with nothing beneath it; any other child arrives
with all that it had.

The index is looked up before the child is taken out of its list, as it is when a node is placed
beside another.  That matters only for a child that has stood before the node in the same list.

* `placed_of_replaceWith`: a replacement that succeeds places the child in the tree without the
  node.
* `insertIdx_position_vacated`: the index of the node is the place of the node, unless the child has
  stood before it and something stands behind it.
* `Placed.get?_of_beneath`: the nodes beneath the child.
* `replaceWith_arrives`: both together, for reachable trees.
* `replaceWith_unwrapping`: a rule that replaces the rule around it loses its declarations.
-/

namespace StyleTree.Edit

open StyleTree.Tree StyleTree.Action

section General

variable [Data] {t u : Tree} {id p c x : Handle} {n np : Node} {index : Option Nat} {after : Bool}
  {left right : List Handle}

theorem placed_of_replaceWith (ht : t.Linked) (hp : t.get? p = some np)
    (hlist : np.children = left ++ id :: right)
    (hok : ((replaceWith id (.node c)).run t).result = .ok (some c)) :
    Placed (t.prune id) p c (some left.length) false ((replaceWith id (.node c)).run t).state := by
  have hsite := site?_of_children ht hp hlist
  rcases (yields_replaceWith ht (.node c)).of_ok hok with
    ⟨hnone, -⟩ | ⟨p', i, c', u, hsite', -, hsupplies, hplaced⟩
  · exact absurd hnone (by simp)
  · cases hsupplies
    rw [hsite] at hsite'
    cases hsite'
    exact hplaced

/-! ## The place -/

omit [Data] in
theorem replace_append_cons (h : id ∉ left) (right : List Handle) (c : Handle) :
    (left ++ id :: right).replace id c = left ++ c :: right := by
  rw [List.replace_append, if_neg h, List.replace_cons_self]

omit [Data] in
/-- Where an entry has been taken out, its index is the place for another one, also if that one has
stood behind it or nowhere.  If it has stood before it, this holds at the end of the list only. -/
theorem insertIdx_position_vacated (hnodup : (left ++ id :: right).Nodup) (hne : c ≠ id)
    (hearlier : c ∈ left → right = []) :
    let rest := (left ++ right).erase c
    rest.insertIdx (position rest.length (some left.length) false) c =
      ((left ++ id :: right).erase c).replace id c := by
  intro rest
  have hid : id ∉ left := (cut_of_nodup hnodup).2.1
  rw [erase_append_cons hne]
  by_cases hc : c ∈ left
  · obtain rfl := hearlier hc
    have hrest : rest = left.erase c := by
      show (left ++ []).erase c = _
      rw [List.append_nil]
    have hposition : position rest.length (some left.length) false = rest.length := by
      simp [position, hrest, List.length_erase_of_mem hc]
    rw [if_pos hc, replace_append_cons fun hmem => hid (List.mem_of_mem_erase hmem), hposition,
      List.insertIdx_length_self, hrest]
  · have hrest : rest = left ++ right.erase c := List.erase_append_right _ hc
    have hposition : position rest.length (some left.length) false = left.length + 0 := by
      simp [position, hrest]
    rw [if_neg hc, replace_append_cons hid, hposition, hrest, insertIdx_append_right,
      List.insertIdx_zero]

/-- The parent of a removed node has the list without it. -/
theorem get?_prune_parent (ht : t.Linked) (hp : t.get? p = some np)
    (hlist : np.children = left ++ id :: right) :
    (t.prune id).get? p = some { np with children := left ++ right } := by
  have hhangs : t.Hangs id p := ht.hangs_of_lists p id ⟨np, hp, by simp [hlist]⟩
  obtain ⟨n, hn⟩ := hhangs.live
  have hid : id ∉ left := (cut_of_nodup (hlist ▸ ht.nodup p np hp)).2.1
  rw [get?_prune_of_not_beneath ht hn (ht.not_beneath_of_hangs hhangs), hp, Option.map_some,
    filter_children_eq_erase ht hp, hlist, List.erase_append_right _ hid, List.erase_cons_head]

/-! ## What is beneath the child -/

/-- The nodes beneath a child that is placed where a node has been removed: they are as they were,
apart from the parent of the child, unless the child was beneath the node. -/
theorem Placed.get?_of_beneath (ht : t.Linked) (hid : t.Hangs id p) (hne : c ≠ id)
    (h : Placed (t.prune id) p c index after u) (hx : t.Beneath x c) (hn : t.get? x = some n) :
    ∃ n', u.get? x = some n' ∧ n'.alone = n.alone ∧ (¬ t.Beneath c id → n'.children = n.children) ∧
      (t.Beneath c id → n'.children = []) := by
  obtain ⟨nid, hnid⟩ := hid.live
  have hpid : ¬ t.Beneath p id := ht.not_beneath_of_hangs hid
  have hpc : ¬ t.Beneath p c := by
    rw [← beneath_prune ht hnid hpid]
    exact h.admits.2.2
  have hxp : x ≠ p := fun he => hpc (he ▸ hx)
  have hget := h.get? (ht.prune hnid) x
  by_cases hc : t.Beneath c id
  · rw [get?_prune_of_beneath ht hnid (hx.trans hc), hn, Option.map_some, Option.map_some,
      if_neg hxp] at hget
    exact ⟨_, hget, rfl, fun hnc => absurd hc hnc, fun _ => rfl⟩
  · have hxid : ¬ t.Beneath x id := by
      intro hb
      -- of two nodes above a third one, one is above the other; here neither can be
      rcases hx.total hb with hcid | hidc
      · exact hc hcid
      · exact hpc (hidc.parent hne.symm hid)
    have hidx : id ∉ n.children := fun hmem =>
      hxp ((ht.hangs_of_lists x id ⟨n, hn, hmem⟩).unique hid)
    have hcx : c ∉ n.children := fun hmem =>
      ht.not_beneath_of_hangs (ht.hangs_of_lists x c ⟨n, hn, hmem⟩) hx
    rw [get?_prune_of_not_beneath ht hnid hxid, hn, Option.map_some, Option.map_some, if_neg hxp,
      filter_children_ne hidx, List.erase_of_not_mem hcx] at hget
    exact ⟨_, hget, rfl, fun _ => rfl, fun hcid => absurd hcid hc⟩

/-- A node of a reachable tree replaced by another one.  The other one comes to stand in its place,
unless it has stood before it in the same list and the node was not the last entry.  It and
everything beneath it keep their attributes and data, and their children too unless it has lain
beneath the node: then none of them has children. -/
theorem replaceWith_arrives (h : t.Reachable) (hp : t.get? p = some np)
    (hlist : np.children = left ++ id :: right) (hne : c ≠ id) :
    let o := (replaceWith id (.node c)).run t
    o.result = .ok (some c) →
      ((c ∈ left → right = []) → ∃ n, o.state.get? p = some n ∧
        n.children = (np.children.erase c).replace id c) ∧
      ∀ x n, t.Beneath x c → t.get? x = some n → ∃ n', o.state.get? x = some n' ∧
        n'.alone = n.alone ∧ (¬ t.Beneath c id → n'.children = n.children) ∧
        (t.Beneath c id → n'.children = []) := by
  intro o hok
  have ht := h.linked
  have hid : t.Hangs id p := ht.hangs_of_lists p id ⟨np, hp, by simp [hlist]⟩
  obtain ⟨nid, hnid⟩ := hid.live
  have hplaced : Placed (t.prune id) p c (some left.length) false o.state :=
    placed_of_replaceWith ht hp hlist hok
  refine ⟨fun hearlier => ?_, fun x n hx hn => hplaced.get?_of_beneath ht hid hne hx hn⟩
  refine ⟨_, hplaced.get?_parent (ht.prune hnid) (get?_prune_parent ht hp hlist), ?_⟩
  rw [hlist]
  exact insertIdx_position_vacated (hlist ▸ ht.nodup p np hp) hne hearlier

end General

/-- The last declaration of one rule replaced by the other rule, which brings its declaration with
it. -/
theorem replaceWith_arrives_across :
    let t := twoRules
    let o := (replaceWith ⟨4, 1⟩ (.node ⟨5, 1⟩)).run t
    t.Reachable ∧ o.result = .ok (some ⟨5, 1⟩) ∧
      (∃ n, o.state.get? ⟨2, 1⟩ = some n ∧ n.children = [⟨3, 1⟩, ⟨5, 1⟩]) ∧
      (∃ n, o.state.get? ⟨5, 1⟩ = some n ∧ n.children = [⟨6, 1⟩]) ∧
      ∃ n, o.state.get? ⟨6, 1⟩ = some n ∧ n.name = some "z" := by
  intro t o
  have ht := reachable_twoRules.linked
  obtain ⟨np, hp, hlist⟩ : ∃ np, t.get? ⟨2, 1⟩ = some np ∧
      np.children = [⟨3, 1⟩] ++ ⟨4, 1⟩ :: [] := ⟨_, rfl, rfl⟩
  obtain ⟨nid, hid⟩ : ∃ nid, t.get? ⟨4, 1⟩ = some nid := ⟨_, rfl⟩
  obtain ⟨nc, hc, hnc⟩ : ∃ nc, t.get? ⟨5, 1⟩ = some nc ∧ nc.children = [⟨6, 1⟩] := ⟨_, rfl, rfl⟩
  obtain ⟨nz, hz, hnz⟩ : ∃ nz, t.get? ⟨6, 1⟩ = some nz ∧ nz.alone.name = some "z" := ⟨_, rfl, rfl⟩
  have hok : o.result = .ok (some ⟨5, 1⟩) := by decide +kernel
  have hapart : ¬ t.Beneath ⟨5, 1⟩ ⟨4, 1⟩ := by
    rw [← ht.isAbove_iff hid]
    decide +kernel
  have hbeneath : t.Beneath ⟨6, 1⟩ ⟨5, 1⟩ := by
    rw [← ht.isAbove_iff hc]
    decide +kernel
  obtain ⟨hplace, hbelow⟩ := replaceWith_arrives reachable_twoRules hp hlist (c := ⟨5, 1⟩)
    (by decide) hok
  obtain ⟨n, hn, hchildren⟩ := hplace fun _ => rfl
  obtain ⟨m, hm, -, hkept, -⟩ := hbelow ⟨5, 1⟩ nc (Beneath.refl t _) hc
  obtain ⟨k, hk, halone, -⟩ := hbelow ⟨6, 1⟩ nz hbeneath hz
  refine ⟨reachable_twoRules, hok, ⟨n, hn, ?_⟩, ⟨m, hm, (hkept hapart).trans hnc⟩, ⟨k, hk, ?_⟩⟩
  · rw [hchildren, hlist]
    rfl
  · exact (congrArg Node.name halone).trans hnz

/-- The tree of a rule `2v1` around a rule `3v1` around a declaration `4v1`. -/
def wrappedRule : Tree :=
  Tree.ofSpecs [.rule "a" [.rule "b" [.declaration "c" "1"]]]

theorem reachable_wrappedRule : wrappedRule.Reachable := by
  have hparse : Css.parse "a \x7b b \x7b c: 1; \x7d \x7d" =
      .ok [.rule "a" [.rule "b" [.declaration "c" "1"]]] := rfl
  exact .parse hparse

/-- What replaces a node need not come whole, nor to its place.  A rule that replaces the rule
around it has lost its declaration, and the first of three declarations that replaces the second one
stands behind the third. -/
theorem replaceWith_unwrapping :
    (let t := wrappedRule
     let o := (replaceWith ⟨2, 1⟩ (.node ⟨3, 1⟩)).run t
     t.Reachable ∧ o.result = .ok (some ⟨3, 1⟩) ∧
      (t.get? ⟨3, 1⟩).map Node.children = some [⟨4, 1⟩] ∧
      (o.state.get? ⟨3, 1⟩).map Node.children = some []) ∧
    (let t := threeDeclarations
     let o := (replaceWith ⟨3, 1⟩ (.node ⟨2, 1⟩)).run t
     t.Reachable ∧ o.result = .ok (some ⟨2, 1⟩) ∧
      (t.get? ⟨1, 1⟩).map Node.children = some [⟨2, 1⟩, ⟨3, 1⟩, ⟨4, 1⟩] ∧
      (o.state.get? ⟨1, 1⟩).map Node.children = some [⟨4, 1⟩, ⟨2, 1⟩]) := by
  refine ⟨⟨reachable_wrappedRule, ?_, ?_, ?_⟩, ⟨reachable_threeDeclarations, ?_, ?_, ?_⟩⟩ <;>
    decide +kernel

end StyleTree.Edit
