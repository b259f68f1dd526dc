import Mathlib.Data.List.Perm.Basic
import Std.Data.HashSet
import StyleTree.Proofs.Tree.Step

/-!
# Removal and compaction in place

Pruning and compaction are defined by the branch that a node has: it is unfolded first, and then the
nodes in it are isolated or kept.  In place this is done without a branch.  Removal cuts the links
of a node and goes on with the children that the node had, so it changes the links that it follows.
Compaction keeps a stack of handles to look at and a set of those it has seen.

Neither is obviously the same.  A cut may take away a link that is yet to be followed, and both
would go on for ever around a circle.  In a linked tree the branch is a tree of different nodes, so
every node of it is met once, by the one link that leads to it, before that link is cut.

* `sever`: the links cut on the way down, to a bounded depth; `none` if the depth does not suffice.
* `Linked.sever_unlink`: the depth suffices, and what is left is the pruned tree.
* `sweep`: the loop over a stack, with a bounded number of rounds; `none` if they do not suffice.
* `Linked.exists_sweep`: the rounds suffice, and what is seen is what the root reaches.
-/

namespace StyleTree.Tree

variable [Data] {t s : Tree} {id x : Handle} {n : Node} {b : Branch} {bs : List Branch}

/-! ## Removal -/

/-- The links of a node cut, and then, child by child, those of what was below it. -/
def sever : Nat → Tree → Handle → Option Tree
  | 0, _, _ => none
  | depth + 1, t, id =>
    match t.get? id with
    | none => some t
    | some node =>
      node.children.foldlM (sever depth)
        (t.update id fun n => { n with parent := none, children := [] })

/-- The nodes have the children in the second tree that they have in the first. -/
def SameChildren (t s : Tree) (ids : List Handle) : Prop :=
  ∀ x ∈ ids, (s.get? x).map Node.children = (t.get? x).map Node.children

theorem isolate_append (t : Tree) (ids ids' : List Handle) :
    t.isolate (ids ++ ids') = (t.isolate ids).isolate ids' :=
  List.foldl_append

theorem SameChildren.isolate {ids ids' : List Handle} (h : SameChildren t s ids')
    (hdisjoint : ∀ x ∈ ids', x ∉ ids) : SameChildren t (s.isolate ids) ids' := by
  intro x hx
  rw [get?_isolate, Option.map_map, ← h x hx]
  refine Option.map_congr fun m _ => ?_
  rw [Function.comp_apply, if_neg (hdisjoint x hx)]

/-- Branches are severed one after the other, if each of them is. -/
theorem foldlM_sever {depth : Nat} (hnodup : (bs.flatMap Branch.handles).Nodup)
    (hsame : SameChildren t s (bs.flatMap Branch.handles))
    (h : ∀ b ∈ bs, ∀ s, SameChildren t s b.handles →
      sever depth s b.id = some (s.isolate b.handles)) :
    (bs.map Branch.id).foldlM (sever depth) s = some (s.isolate (bs.flatMap Branch.handles)) := by
  induction bs generalizing s with
  | nil => rfl
  | cons b bs ih =>
    rw [List.flatMap_cons] at hnodup hsame
    obtain ⟨-, hrest, hdisjoint⟩ := List.nodup_append'.mp hnodup
    rw [List.map_cons, List.foldlM_cons, List.flatMap_cons, isolate_append,
      h b (List.mem_cons_self ..) s fun x hx => hsame x (List.mem_append_left _ hx)]
    -- what is cut in the first branch is in none of the others
    refine ih hrest ?_ fun c hc => h c (List.mem_cons_of_mem _ hc)
    have hlater : SameChildren t s (bs.flatMap Branch.handles) := fun x hx =>
      hsame x (List.mem_append_right _ hx)
    exact hlater.isolate fun x hx hxb => hdisjoint hxb hx

/-- A whole branch is severed if the depth is at least the number of its nodes. -/
theorem Shows.sever (hb : t.Shows b) {depth : Nat} (hnodup : b.handles.Nodup)
    (hdepth : b.handles.length ≤ depth) (hsame : SameChildren t s b.handles) :
    s.sever depth b.id = some (s.isolate b.handles) := by
  induction hb generalizing depth s with
  | @mk id node bs hnode hchildren hbs ih =>
    rw [Branch.handles_mk] at hnodup hdepth hsame ⊢
    rw [Branch.id_mk]
    obtain ⟨hid, hrest⟩ := List.nodup_cons.mp hnodup
    cases depth with
    | zero => exact absurd hdepth (by simp)
    | succ depth =>
      have hnode' := hsame id (List.mem_cons_self ..)
      rw [hnode, Option.map_some] at hnode'
      obtain ⟨m, hm, hmchildren⟩ := Option.map_eq_some_iff.mp hnode'
      have hbelow : SameChildren t (s.isolate [id]) (bs.flatMap Branch.handles) := by
        have hkids : SameChildren t s (bs.flatMap Branch.handles) := fun x hx =>
          hsame x (List.mem_cons_of_mem _ hx)
        refine hkids.isolate fun x hx hxid => hid ?_
        rwa [List.mem_singleton.mp hxid] at hx
      rw [Tree.sever, hm]
      dsimp only
      rw [hmchildren, ← hchildren]
      refine foldlM_sever hrest hbelow fun b hb s' hs' => ih b hb ?_ ?_ hs'
      · exact (List.nodup_flatMap.mp hrest).1 b hb
      · have hle : b.handles.length ≤ (bs.flatMap Branch.handles).length :=
          (List.sublist_flatten_of_mem (List.mem_map_of_mem hb)).length_le
        rw [List.length_cons] at hdepth
        omega

/-- In a linked tree, cutting the links of a node on the way down, once it is taken out of its
parent, prunes it. -/
theorem Linked.sever_unlink (ht : t.Linked) (hid : t.get? id = some n) {depth : Nat}
    (hdepth : t.bound ≤ depth) : (t.unlink id).sever depth id = some (t.prune id) := by
  obtain ⟨b, -, rfl, hshows⟩ := ht.exists_branch? hid
  have hlen := hshows.length_handles_le ht
  have hsame : SameChildren t (t.unlink b.id) b.handles := by
    intro x hx
    rw [get?_unlink ht, Option.map_map]
    refine Option.map_congr fun m hm => ?_
    -- the node is no child of what is beneath it
    have hnot : b.id ∉ m.children := fun hmem =>
      ht.not_beneath_of_hangs (ht.hangs_of_lists x b.id ⟨m, hm, hmem⟩)
        ((hshows.mem_handles_iff ht).mp hx)
    exact (congrArg Node.children (filter_children_ne hnot) :)
  rw [hshows.sever (hshows.nodup_handles ht) (Nat.le_trans hlen hdepth) hsame, Tree.prune,
    hshows.below_eq ht]
  rfl

/-! ## Compaction -/

/-- The handles that are met from a stack of them, the topmost first.  A handle that is seen for the
first time is put among those that are seen, and its children on the stack, the last of them on
top. -/
def sweep (t : Tree) : Nat → Std.HashSet Handle → List Handle → Option (Std.HashSet Handle)
  | _, seen, [] => some seen
  | 0, _, _ :: _ => none
  | rounds + 1, seen, id :: stack =>
    if seen.contains id then t.sweep rounds seen stack
    else
      match t.get? id with
      | none => t.sweep rounds (seen.insert id) stack
      | some node => t.sweep rounds (seen.insert id) (node.children.reverse ++ stack)

/-- The branches below a node, put on a stack, have the nodes that they had in place. -/
theorem perm_flatMap_handles (cs bs : List Branch) :
    ((cs.reverse ++ bs).flatMap Branch.handles).Perm
      (cs.flatMap Branch.handles ++ bs.flatMap Branch.handles) := by
  rw [List.flatMap_append]
  exact ((List.reverse_perm cs).flatMap_right _).append_right _

/-- A stack of whole branches without a node in common is met node by node. -/
theorem exists_sweep_of_shows (rounds : Nat) (seen : Std.HashSet Handle) (bs : List Branch)
    (hbs : ∀ b ∈ bs, t.Shows b) (hnodup : (bs.flatMap Branch.handles).Nodup)
    (hnew : ∀ x ∈ bs.flatMap Branch.handles, x ∉ seen)
    (hrounds : (bs.flatMap Branch.handles).length ≤ rounds) :
    ∃ all, t.sweep rounds seen (bs.map Branch.id) = some all ∧
      ∀ x, x ∈ all ↔ x ∈ seen ∨ x ∈ bs.flatMap Branch.handles := by
  induction rounds generalizing bs seen with
  | zero =>
    cases bs with
    | nil => exact ⟨seen, rfl, by simp⟩
    | cons b bs =>
      obtain ⟨id, node, cs⟩ := b
      rw [List.flatMap_cons, Branch.handles_mk] at hrounds
      exact absurd hrounds (by simp)
  | succ rounds ih =>
    cases bs with
    | nil => exact ⟨seen, rfl, by simp⟩
    | cons b bs =>
      obtain ⟨hb, hlater⟩ := List.forall_mem_cons.mp hbs
      cases hb with
      | @mk id node cs hnode hchildren hcs =>
        rw [List.flatMap_cons, Branch.handles_mk, List.cons_append] at hnodup hnew hrounds
        obtain ⟨hid, hrest⟩ := List.nodup_cons.mp hnodup
        have hperm := perm_flatMap_handles cs bs
        have hshows : ∀ b ∈ cs.reverse ++ bs, t.Shows b := by
          intro b hb
          rcases List.mem_append.mp hb with hb | hb
          · exact hcs b (List.mem_reverse.mp hb)
          · exact hlater b hb
        have hunseen : ∀ x ∈ (cs.reverse ++ bs).flatMap Branch.handles, x ∉ seen.insert id := by
          intro x hx hseen
          have hx := hperm.mem_iff.mp hx
          rcases Std.HashSet.mem_insert.mp hseen with he | hseen
          · exact hid (eq_of_beq he ▸ hx)
          · exact hnew x (List.mem_cons_of_mem _ hx) hseen
        have hfewer : ((cs.reverse ++ bs).flatMap Branch.handles).length ≤ rounds := by
          rw [hperm.length_eq]
          exact Nat.le_of_succ_le_succ hrounds
        obtain ⟨all, hall, hmem⟩ := ih (seen.insert id) (cs.reverse ++ bs) hshows
          (hperm.nodup_iff.mpr hrest) hunseen hfewer
        refine ⟨all, ?_, fun x => ?_⟩
        · have hnot : ¬ seen.contains id = true := fun h =>
            hnew id (List.mem_cons_self ..) (Std.HashSet.mem_iff_contains.mpr h)
          rw [List.map_append, List.map_reverse, hchildren] at hall
          rw [List.map_cons, Branch.id_mk, sweep, if_neg hnot, hnode]
          exact hall
        · rw [hmem, Std.HashSet.mem_insert, hperm.mem_iff, List.flatMap_cons, Branch.handles_mk,
            List.cons_append, List.mem_cons, beq_iff_eq]
          grind

/-- In a linked tree, the loop that starts with the root on the stack ends after at most one round
for each slot, and compaction keeps the nodes that it has seen. -/
theorem Linked.exists_sweep (ht : t.Linked) {rounds : Nat} (hrounds : t.bound ≤ rounds) :
    ∃ seen, t.sweep rounds ∅ [t.root] = some seen ∧ (∀ x, x ∈ seen ↔ x ∈ t.reached) ∧
      t.compact = { t with arena := t.arena.retain fun id => seen.contains id } := by
  obtain ⟨n, hn⟩ := ht.root
  obtain ⟨b, -, hroot, hshows⟩ := ht.exists_branch? hn
  have hlen := hshows.length_handles_le ht
  obtain ⟨seen, hseen, hmem⟩ := exists_sweep_of_shows rounds ∅ [b] (by simpa using hshows)
    (by simpa using hshows.nodup_handles ht) (by simp) (by simpa using Nat.le_trans hlen hrounds)
  have hreached : ∀ x, x ∈ seen ↔ x ∈ t.reached := by
    intro x
    rw [hmem, reached, ← hroot, hshows.below_eq ht]
    simp [Branch.handles]
  refine ⟨seen, hroot ▸ hseen, hreached, ?_⟩
  have hkept : (fun id => seen.contains id) = fun id => t.reached.contains id := by
    funext x
    rw [Bool.eq_iff_iff, ← Std.HashSet.mem_iff_contains, hreached, List.contains_iff_mem]
  rw [hkept]
  rfl

end StyleTree.Tree
