import StyleTree.Proofs.Edit.Place
import StyleTree.Proofs.Tree.Reach
import StyleTree.Tree.Search

/-!
# What compaction frees

Compaction walks down from the root and frees what it has not met.  What it has met is closed under
child links, so a survivor keeps its whole branch.  Whoever asks a survivor for its text or searches
below it reads that branch and nothing else, and cannot tell that anything was freed.

* `garbage t`: the nodes that compaction frees, each once (`mem_garbage_iff`, `nodup_garbage`).
* `size_compact`: their number is what compaction reports.  After it there are none
  (`garbage_compact`).
* `branch?_compact`: the branch of a survivor is the one that it had, and `print_compact`,
  `search_compact` and `content_compact` follow.
* `compact_effect`: all of this for reachable trees.
-/

namespace StyleTree

namespace Tree

variable [Data] {t : Tree} {x : Handle} {n : Node}

/-! ## The nodes that are freed -/

/-- The nodes that are not reached from the root. -/
def garbage (t : Tree) : List Handle :=
  t.arena.handles.filter fun x => !t.reached.contains x

theorem nodup_garbage (t : Tree) : t.garbage.Nodup :=
  (Arena.nodup_handles t.arena).filter _

/-- What the root reaches by child links is what compaction keeps. -/
theorem Linked.mem_reached_iff_reaches (ht : t.Linked) : x ∈ t.reached ↔ t.Reaches t.root x := by
  obtain ⟨n, hn⟩ := ht.root
  rw [ht.mem_reached_iff, ht.reaches_iff hn]

theorem Linked.mem_garbage_iff (ht : t.Linked) :
    x ∈ t.garbage ↔ (∃ n, t.get? x = some n) ∧ ¬ t.Reaches t.root x := by
  rw [← ht.mem_reached_iff_reaches]
  simp only [garbage, List.mem_filter, Arena.mem_handles_iff, get?, Bool.not_eq_true',
    List.contains_eq_mem, decide_eq_false_iff_not]

theorem freed_of_mem_garbage (ht : t.Linked) (hx : x ∈ t.garbage) : t.compact.arena.Freed x := by
  obtain ⟨⟨n, hn⟩, hnot⟩ := ht.mem_garbage_iff.mp hx
  refine freed_compact ht hn fun hb => hnot ?_
  rwa [← ht.mem_reached_iff_reaches, ht.mem_reached_iff]

theorem size_compact (t : Tree) : t.size = t.compact.size + t.garbage.length :=
  Arena.size_retain t.arena _

theorem get?_compact_of_reaches (ht : t.Linked) (hx : t.Reaches t.root x) :
    t.compact.get? x = t.get? x := by
  rw [get?_compact, if_pos (ht.mem_reached_iff_reaches.mpr hx)]

/-- A node is there after compaction exactly if it was there before and the root reached it. -/
theorem get?_compact_eq_some_iff (ht : t.Linked) :
    t.compact.get? x = some n ↔ t.get? x = some n ∧ t.Reaches t.root x := by
  rw [get?_compact, ← ht.mem_reached_iff_reaches]
  by_cases hx : x ∈ t.reached
  · rw [if_pos hx, and_iff_left hx]
  · rw [if_neg hx]
    exact iff_of_false (by simp) fun h => hx h.2

/-! ## The survivors -/

/-- A survivor keeps its branch: whatever is beneath it survives too. -/
theorem branch?_compact (ht : t.Linked) (hn : t.get? x = some n) (hx : t.Reaches t.root x) :
    t.compact.branch? x = t.branch? x := by
  obtain ⟨b, hb, rfl, hshows⟩ := ht.exists_branch? hn
  have hsame : ∀ y ∈ b.handles, t.compact.get? y = t.get? y := by
    intro y hy
    have hyx : t.Reaches b.id y := (ht.reaches_iff hn).mpr ((hshows.mem_handles_iff ht).mp hy)
    exact get?_compact_of_reaches ht (Relation.ReflTransGen.trans hx hyx)
  rw [hb, (hshows.congr hsame).branch? ht.compact]

theorem print_compact (ht : t.Linked) (hn : t.get? x = some n) (hx : t.Reaches t.root x)
    (separator : String) : t.compact.print separator x = t.print separator x := by
  unfold print
  rw [branch?_compact ht hn hx]

theorem search_compact (ht : t.Linked) (hn : t.get? x = some n)
    (hx : t.Reaches t.root x) (q : Query) : t.compact.search x q = t.search x q := by
  unfold search below
  rw [branch?_compact ht hn hx]

omit [Data] in
theorem mapM_congr_of_mem {α β : Type} {f g : α → Except Fault β} {l : List α}
    (h : ∀ a ∈ l, f a = g a) : l.mapM f = l.mapM g := by
  induction l with
  | nil => rfl
  | cons a l ih =>
    rw [List.mapM_cons, List.mapM_cons, h a (List.mem_cons_self ..),
      ih fun b hb => h b (List.mem_cons_of_mem _ hb)]

theorem content_compact (ht : t.Linked) (hn : t.get? x = some n) (hx : t.Reaches t.root x) :
    t.compact.content x = t.content x := by
  unfold content
  rw [get?_compact_of_reaches ht hx, hn]
  refine mapM_congr_of_mem fun c hc => ?_
  have hlists : t.Lists x c := ⟨n, hn, hc⟩
  obtain ⟨m, hm⟩ := (ht.hangs_of_lists x c hlists).live
  exact print_compact ht hm (Relation.ReflTransGen.tail hx hlists) lineFeed

/-- The ways down from the root lead through survivors only, so they are left. -/
theorem reaches_compact (ht : t.Linked) (hx : t.Reaches t.root x) : t.compact.Reaches t.root x := by
  induction hx with
  | refl => exact Relation.ReflTransGen.refl
  | tail hy hl ih => exact ih.tail ((lists_compact ht).mpr ⟨hl, ht.beneath_of_reaches hy⟩)

/-- After compaction the root reaches everything. -/
theorem garbage_compact (ht : t.Linked) : t.compact.garbage = [] := by
  refine List.eq_nil_iff_forall_not_mem.mpr fun x hx => ?_
  obtain ⟨⟨n, hn⟩, hnot⟩ := ht.compact.mem_garbage_iff.mp hx
  exact hnot (reaches_compact ht ((get?_compact_eq_some_iff ht).mp hn).2)

end Tree

namespace Edit

open StyleTree.Tree StyleTree.Action

section General

variable [Data] {t : Tree} {id : Handle}

/-- Compaction succeeds and reports how many nodes it has freed. -/
theorem result_compact (t : Tree) : (compact.run t).result = .ok t.garbage.length := by
  show Except.ok (t.size - t.compact.size) = _
  rw [size_compact, Nat.add_sub_cancel_left]

/-- Whatever begins by asking for a node that is not there is refused. -/
theorem yields_node_bind_of_dead {α : Type} (hid : t.get? id = none) (f : Node → Edit α) :
    (node id >>= f).Yields t (fun _ _ => False) fun e _ => e = .invalidNode := by
  rw [yields_bind, yields_node]
  refine ⟨fun n hn => ?_, fun _ => rfl⟩
  rw [hid] at hn
  exact absurd hn (by simp)

/-- A handle without a node is refused by whoever asks for the node or wants it removed. -/
theorem refused_of_dead (hid : t.get? id = none) :
    ((node id).run t).result = .error .invalidNode ∧
      ((remove id).run t).result = .error .invalidNode := by
  constructor
  · have hyields := yields_node_bind_of_dead hid pure
    rw [bind_pure] at hyields
    obtain ⟨e, he, rfl⟩ := hyields.exists_error
    exact he
  · obtain ⟨e, he, rfl⟩ := (yields_node_bind_of_dead hid fun _ => do
      Action.modify (·.prune id)
      Action.report (.removedNode id)
      return id).exists_error
    exact he

/-- Compacting a reachable tree.  It frees the nodes that child links do not reach from the root, no
others, and returns their number.  Their handles are refused from then on, whatever edits follow.
Every other node is as it was, its links included, and gives the same text in every style, the same
answer to every search and the same content.  Compacting once more frees nothing. -/
theorem compact_effect (h : t.Reachable) :
    let o := compact.run t
    (∃ freed : List Handle, freed.Nodup ∧
      (∀ x, x ∈ freed ↔ (∃ n, t.get? x = some n) ∧ ¬ t.Reaches t.root x) ∧
      o.result = .ok freed.length ∧
      ∀ x ∈ freed, ∀ u, Edits o.state u →
        ((node x).run u).result = .error .invalidNode ∧
        ((remove x).run u).result = .error .invalidNode) ∧
    o.state.root = t.root ∧
    (∀ x n, o.state.get? x = some n ↔ t.get? x = some n ∧ t.Reaches t.root x) ∧
    (∀ x n, o.state.get? x = some n →
      (∀ separator, o.state.print separator x = t.print separator x) ∧
      (∀ q, o.state.search x q = t.search x q) ∧
      o.state.content x = t.content x) ∧
    (compact.run o.state).result = .ok 0 := by
  intro o
  have ht := h.linked
  have hstate : o.state = t.compact := rfl
  have hkept : ∀ x n, o.state.get? x = some n ↔ t.get? x = some n ∧ t.Reaches t.root x :=
    fun x n => get?_compact_eq_some_iff ht
  refine ⟨⟨t.garbage, nodup_garbage t, fun x => ht.mem_garbage_iff, result_compact t, ?_⟩, rfl,
    hkept, ?_, ?_⟩
  · intro x hx u hu
    exact refused_of_dead
      ((hu.steps ht.compact).freed ht.compact (freed_of_mem_garbage ht hx)).get?_eq_none
  · intro x n hn
    obtain ⟨hn, hx⟩ := (hkept x n).mp hn
    exact ⟨print_compact ht hn hx, search_compact ht hn hx, content_compact ht hn hx⟩
  · rw [hstate, result_compact, garbage_compact ht]
    rfl

end General

/-- Of two rules one has been detached, with two declarations below it.  Compaction frees these
three nodes and keeps the other rule. -/
theorem compact_effect_detached :
    let t := ((detach ⟨2, 1⟩).run twoRules).state
    let o := compact.run t
    t.Reachable ∧ o.result = .ok 3 ∧
      ((node ⟨3, 1⟩).run o.state).result = .error .invalidNode ∧
      o.state.get? ⟨5, 1⟩ = t.get? ⟨5, 1⟩ ∧ o.state.text ⟨5, 1⟩ = .ok "b \x7b\nz: 3;\n\x7d" ∧
      (compact.run o.state).result = .ok 0 := by
  intro t o
  have hreachable : t.Reachable := reachable_twoRules.edit (.detach ⟨2, 1⟩)
  have ht := hreachable.linked
  obtain ⟨nr, hr⟩ : ∃ nr, t.get? t.root = some nr := ⟨_, rfl⟩
  obtain ⟨nb, hb⟩ : ∃ nb, t.get? ⟨5, 1⟩ = some nb := ⟨_, rfl⟩
  have hkept : t.Reaches t.root ⟨5, 1⟩ := by
    rw [ht.reaches_iff hr, ← ht.isAbove_iff hr]
    decide +kernel
  have hlost : ¬ t.Reaches t.root ⟨3, 1⟩ := by
    rw [ht.reaches_iff hr, ← ht.isAbove_iff hr]
    decide +kernel
  obtain ⟨⟨freed, -, hfreed, -, hrefused⟩, -, hsame, hread, hagain⟩ := compact_effect hreachable
  have hget : o.state.get? ⟨5, 1⟩ = some nb := (hsame ⟨5, 1⟩ nb).mpr ⟨hb, hkept⟩
  obtain ⟨hprint, -⟩ := hread ⟨5, 1⟩ nb hget
  have hthree : o.result = .ok 3 := by decide +kernel
  have htext : t.print lineFeed ⟨5, 1⟩ = .ok "b \x7b\nz: 3;\n\x7d" := by decide +kernel
  refine ⟨hreachable, hthree, ?_, hget.trans hb.symm, (hprint lineFeed).trans htext, hagain⟩
  have hmem : ⟨3, 1⟩ ∈ freed := (hfreed ⟨3, 1⟩).mpr ⟨⟨_, rfl⟩, hlost⟩
  exact (hrefused ⟨3, 1⟩ hmem o.state Relation.ReflTransGen.refl).1

end Edit

end StyleTree
