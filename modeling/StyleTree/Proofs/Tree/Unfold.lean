import Mathlib.Data.List.Nodup
import StyleTree.Proofs.Tree.Links
import StyleTree.Tree.Lineage

/-!
# Unfolding a linked tree

Branches and lineages are unfolded to a bounded depth, the number of slots.  In a linked tree that
bound is never reached: what a path visits is a list of different nodes, and different nodes have
different slots (`length_le_bound`).  So a branch is everything beneath its handle and a lineage is
everything above it.

* `Shows t b`: the branch `b` is in the tree `t`, whole.
* `exists_branch?`: every node has such a branch.
* `mem_below_iff`, `mem_lineage_iff`: what a branch and a lineage hold.
* `isAbove_iff`: the test against circular parentage decides `Beneath`.
-/

namespace StyleTree

open Relation

variable [Data]

/-! ## The handles of a branch -/

namespace Branch

@[simp] theorem id_mk (id : Handle) (node : Node) (bs : List Branch) :
    (Branch.mk id node bs).id = id := rfl

@[simp] theorem node_mk (id : Handle) (node : Node) (bs : List Branch) :
    (Branch.mk id node bs).node = node := rfl

mutual

/-- The depth at which counting starts does not show in the entries. -/
theorem map_snd_rows (depth depth' : Nat) (b : Branch) :
    (b.rows depth).map Prod.snd = (b.rows depth').map Prod.snd := by
  obtain ⟨id, node, bs⟩ := b
  rw [rows, rows, List.map_cons, List.map_cons, map_snd_rowsAll (depth + 1) (depth' + 1) bs]

theorem map_snd_rowsAll (depth depth' : Nat) (bs : List Branch) :
    (rowsAll depth bs).map Prod.snd = (rowsAll depth' bs).map Prod.snd := by
  match bs with
  | [] => rfl
  | b :: bs =>
    rw [rowsAll, rowsAll, List.map_append, List.map_append, map_snd_rows depth depth' b,
      map_snd_rowsAll depth depth' bs]

end

theorem map_snd_rowsAll_eq (depth : Nat) (bs : List Branch) :
    (rowsAll depth bs).map Prod.snd = bs.flatMap entries := by
  induction bs with
  | nil => rfl
  | cons b bs ih =>
    rw [rowsAll, List.map_append, ih, List.flatMap_cons, entries, map_snd_rows depth 0]

theorem entries_mk (id : Handle) (node : Node) (bs : List Branch) :
    (Branch.mk id node bs).entries = (id, node) :: bs.flatMap entries := by
  rw [entries, rows, List.map_cons, map_snd_rowsAll_eq]

theorem handles_mk (id : Handle) (node : Node) (bs : List Branch) :
    (Branch.mk id node bs).handles = id :: bs.flatMap handles := by
  rw [handles, entries_mk, List.map_cons, List.map_flatMap]
  rfl

end Branch

namespace Tree

variable {t : Tree} {id x y : Handle} {n : Node} {b : Branch}

/-- Different nodes have different slots. -/
theorem length_le_bound {l : List Handle} (hl : l.Nodup) (hlive : ∀ x ∈ l, ∃ n, t.get? x = some n) :
    l.length ≤ t.bound := by
  have hinj : (l.map Handle.index).Nodup := by
    refine hl.map_on fun x hx y hy he => ?_
    obtain ⟨n, hn⟩ := hlive x hx
    obtain ⟨m, hm⟩ := hlive y hy
    exact Arena.eq_of_index_eq hn hm he
  have hsub : l.map Handle.index ⊆ List.range t.bound := by
    intro i hi
    obtain ⟨x, hx, rfl⟩ := List.mem_map.mp hi
    obtain ⟨n, hn⟩ := hlive x hx
    exact List.mem_range.mpr (Arena.index_lt_of_get? hn)
  have hlen := hinj.length_le_of_subset hsub
  rwa [List.length_map, List.length_range] at hlen

/-! ## Branches -/

/-- A branch that is in a tree with everything beneath its topmost node. -/
inductive Shows (t : Tree) : Branch → Prop
  | mk {id : Handle} {node : Node} {bs : List Branch} (hnode : t.get? id = some node)
      (hchildren : bs.map Branch.id = node.children) (hbs : ∀ b ∈ bs, Shows t b) :
      Shows t ⟨id, node, bs⟩

theorem Shows.get? (h : t.Shows b) : t.get? b.id = some b.node := by
  obtain ⟨hnode, -, -⟩ := h
  exact hnode

/-- A list of handles that all have whole branches unfolds into the list of these. -/
theorem filterMap_branchAt {k : Nat} {l : List Handle}
    (hl : ∀ c ∈ l, ∃ b, t.branchAt k c = some b ∧ b.id = c ∧ t.Shows b) :
    (l.filterMap fun c => t.branchAt k c).map Branch.id = l ∧
      ∀ b ∈ l.filterMap fun c => t.branchAt k c, t.Shows b := by
  induction l with
  | nil => exact ⟨rfl, by simp⟩
  | cons c l ih =>
    obtain ⟨b, hb, hid, hshow⟩ := hl c (List.mem_cons_self ..)
    obtain ⟨hmap, hall⟩ := ih fun c' hc' => hl c' (List.mem_cons_of_mem _ hc')
    rw [List.filterMap_cons_some hb]
    refine ⟨by rw [List.map_cons, hid, hmap], fun b' hb' => ?_⟩
    rcases List.mem_cons.mp hb' with rfl | hb'
    · exact hshow
    · exact hall b' hb'

/-- The nodes above a handle and the depth still to be unfolded together exhaust the slots, so the
unfolding ends before the depth does. -/
theorem branchAt_of_path (ht : t.Linked) (k : Nat) : ∀ (id : Handle) (path : List Handle),
    (∃ n, t.get? id = some n) → path.Nodup →
    (∀ y ∈ path, (∃ n, t.get? y = some n) ∧ TransGen t.Hangs id y) →
    t.bound ≤ path.length + k → ∃ b, t.branchAt k id = some b ∧ b.id = id ∧ t.Shows b := by
  induction k with
  | zero =>
    intro id path hid hnd hpath hbound
    have hlen : (id :: path).length ≤ t.bound := by
      refine length_le_bound (List.nodup_cons.mpr ⟨fun hmem => ?_, hnd⟩) fun x hx => ?_
      · exact ht.acyclic id (hpath id hmem).2
      · rcases List.mem_cons.mp hx with rfl | hx
        · exact hid
        · exact (hpath x hx).1
    rw [List.length_cons] at hlen
    omega
  | succ k ih =>
    rintro id path ⟨n, hn⟩ hnd hpath hbound
    have hkids : ∀ c ∈ n.children, ∃ b, t.branchAt k c = some b ∧ b.id = c ∧ t.Shows b := by
      intro c hc
      have hhangs : t.Hangs c id := ht.hangs_of_lists id c ⟨n, hn, hc⟩
      refine ih c (id :: path) hhangs.live ?_ ?_ (by rw [List.length_cons]; omega)
      · exact List.nodup_cons.mpr ⟨fun hmem => ht.acyclic id (hpath id hmem).2, hnd⟩
      · intro y hy
        rcases List.mem_cons.mp hy with rfl | hy
        · exact ⟨⟨n, hn⟩, TransGen.single hhangs⟩
        · exact ⟨(hpath y hy).1, TransGen.head hhangs (hpath y hy).2⟩
    obtain ⟨hmap, hall⟩ := filterMap_branchAt hkids
    refine ⟨⟨id, n, n.children.filterMap fun c => t.branchAt k c⟩, ?_, rfl, ?_⟩
    · rw [branchAt, hn, Option.map_some]
    · exact Shows.mk hn hmap hall

/-- Every node of a linked tree has its whole branch. -/
theorem Linked.exists_branch? (ht : t.Linked) (hid : t.get? id = some n) :
    ∃ b, t.branch? id = some b ∧ b.id = id ∧ t.Shows b :=
  branchAt_of_path ht t.bound id [] ⟨n, hid⟩ List.nodup_nil (by simp) (by simp)

/-- Lists of branches with the same handles are equal if branches with the same handle are. -/
theorem eq_of_map_id_eq {bs cs : List Branch} (hmap : bs.map Branch.id = cs.map Branch.id)
    (h : ∀ b ∈ bs, ∀ c ∈ cs, b.id = c.id → b = c) : bs = cs := by
  induction bs generalizing cs with
  | nil => exact (List.map_eq_nil_iff.mp hmap.symm).symm
  | cons b bs ih =>
    cases cs with
    | nil => exact absurd hmap (by simp)
    | cons c cs =>
      obtain ⟨hid, hrest⟩ := List.cons.inj hmap
      rw [h b (List.mem_cons_self ..) c (List.mem_cons_self ..) hid,
        ih hrest fun b' hb' c' hc' =>
          h b' (List.mem_cons_of_mem _ hb') c' (List.mem_cons_of_mem _ hc')]

/-- There is one whole branch at a handle. -/
theorem Shows.unique (h : t.Shows b) : ∀ {c : Branch}, t.Shows c → b.id = c.id → b = c := by
  induction h with
  | @mk id node bs hnode hchildren _ ih =>
    rintro c ⟨hnode', hchildren', hcs⟩ he
    obtain rfl : id = _ := he
    rw [hnode] at hnode'
    cases hnode'
    rw [eq_of_map_id_eq (hchildren.trans hchildren'.symm) fun b hb c hc => ih b hb (hcs c hc)]

/-- Unfolding a tree at a handle gives the whole branch there. -/
theorem Shows.branch? (ht : t.Linked) (h : t.Shows b) : t.branch? b.id = some b := by
  obtain ⟨c, hc, hid, hshows⟩ := ht.exists_branch? h.get?
  rw [hc, hshows.unique h hid]

/-- A whole branch holds what is beneath its topmost node. -/
theorem Shows.mem_handles_iff (ht : t.Linked) (h : t.Shows b) :
    x ∈ b.handles ↔ t.Beneath x b.id := by
  induction h with
  | @mk id node bs hnode hchildren _ ih =>
    rw [Branch.handles_mk, List.mem_cons, List.mem_flatMap, Branch.id_mk]
    constructor
    · rintro (rfl | ⟨b, hb, hx⟩)
      · exact Beneath.refl t x
      · have hmem : b.id ∈ node.children := hchildren ▸ List.mem_map_of_mem hb
        exact ((ih b hb).mp hx).trans
          (Beneath.of_hangs (ht.hangs_of_lists id b.id ⟨node, hnode, hmem⟩))
    · intro hx
      rcases ReflTransGen.cases_tail hx with rfl | ⟨c, hxc, hc⟩
      · exact Or.inl rfl
      · obtain ⟨m, hm, hmem⟩ := ht.lists_of_hangs_of_live hc hnode
        rw [hnode] at hm
        cases hm
        rw [← hchildren] at hmem
        obtain ⟨b, hb, rfl⟩ := List.mem_map.mp hmem
        exact Or.inr ⟨b, hb, (ih b hb).mpr hxc⟩

/-- Every handle of a whole branch has a node. -/
theorem Shows.live_of_mem (h : t.Shows b) (hx : x ∈ b.handles) : ∃ n, t.get? x = some n := by
  induction h with
  | @mk id node bs hnode _ _ ih =>
    rw [Branch.handles_mk] at hx
    rcases List.mem_cons.mp hx with rfl | hx
    · exact ⟨node, hnode⟩
    · obtain ⟨b, hb, hx⟩ := List.mem_flatMap.mp hx
      exact ih b hb hx

/-- A whole branch has the nodes of the tree. -/
theorem Shows.get?_of_mem_entries (h : t.Shows b) (hx : (x, n) ∈ b.entries) :
    t.get? x = some n := by
  induction h with
  | @mk id node bs hnode _ _ ih =>
    rw [Branch.entries_mk] at hx
    rcases List.mem_cons.mp hx with he | hx
    · cases he
      exact hnode
    · obtain ⟨c, hc, hx⟩ := List.mem_flatMap.mp hx
      exact ih c hc hx

/-- Children of one node have nothing beneath them in common. -/
theorem Linked.not_beneath_of_siblings (ht : t.Linked) {c : Handle} (hc : t.Hangs c id)
    (hy : t.Hangs y id) (hne : c ≠ y) (hxc : t.Beneath x c) : ¬ t.Beneath x y := by
  intro hxy
  rcases hxc.total hxy with h | h
  · exact ht.not_beneath_of_hangs hy (h.parent hne hc)
  · exact ht.not_beneath_of_hangs hc (h.parent hne.symm hy)

/-- The handles of a whole branch are distinct. -/
theorem Shows.nodup_handles (ht : t.Linked) (h : t.Shows b) : b.handles.Nodup := by
  induction h with
  | @mk id node bs hnode hchildren hbs ih =>
    rw [Branch.handles_mk, List.nodup_cons, List.nodup_flatMap]
    have hhangs : ∀ b ∈ bs, t.Hangs b.id id := fun b hb =>
      ht.hangs_of_lists id b.id ⟨node, hnode, hchildren ▸ List.mem_map_of_mem hb⟩
    refine ⟨?_, ih, ?_⟩
    · rw [List.mem_flatMap]
      rintro ⟨b, hb, hid⟩
      exact ht.not_beneath_of_hangs (hhangs b hb) (((hbs b hb).mem_handles_iff ht).mp hid)
    · have hnodup := ht.nodup id node hnode
      rw [← hchildren, List.Nodup, List.pairwise_map] at hnodup
      refine hnodup.imp_of_mem fun {b c} hb hc hne x hxb hxc => ?_
      exact ht.not_beneath_of_siblings (hhangs b hb) (hhangs c hc) hne
        (((hbs b hb).mem_handles_iff ht).mp hxb) (((hbs c hc).mem_handles_iff ht).mp hxc)

theorem Shows.length_handles_le (ht : t.Linked) (h : t.Shows b) : b.handles.length ≤ t.bound :=
  length_le_bound (h.nodup_handles ht) fun _ hx => h.live_of_mem hx

theorem Shows.below_eq (ht : t.Linked) (h : t.Shows b) : t.below b.id = b.entries := by
  rw [Tree.below, h.branch? ht]
  rfl

/-- The nodes at and below a handle are those beneath it. -/
theorem Linked.mem_below_iff (ht : t.Linked) (hid : t.get? id = some n) :
    x ∈ (t.below id).map Prod.fst ↔ t.Beneath x id := by
  obtain ⟨b, -, rfl, hshow⟩ := ht.exists_branch? hid
  rw [hshow.below_eq ht, ← hshow.mem_handles_iff ht]
  rfl

/-! ## Lineages -/

theorem beneath_of_mem_lineageFrom {k : Nat} (h : (x, n) ∈ t.lineageFrom k id) :
    t.Beneath id x ∧ t.get? x = some n := by
  induction k generalizing id with
  | zero => exact absurd h (by simp [lineageFrom])
  | succ k ih =>
    rw [lineageFrom] at h
    cases hid : t.get? id with
    | none =>
      rw [hid] at h
      exact absurd h (by simp)
    | some m =>
      rw [hid] at h
      rcases List.mem_cons.mp h with he | h
      · cases he
        exact ⟨Beneath.refl t x, hid⟩
      · cases hp : m.parent with
        | none =>
          rw [hp] at h
          exact absurd h (by simp)
        | some p =>
          rw [hp] at h
          obtain ⟨hb, hx⟩ := ih h
          exact ⟨(Beneath.of_hangs ⟨m, hid, hp⟩).trans hb, hx⟩

/-- The nodes beneath a handle and the length still to be followed together exhaust the slots, so
the lineage ends before the length does. -/
theorem mem_lineageFrom_of_path (ht : t.Linked) (k : Nat) : ∀ (id : Handle) (path : List Handle),
    path.Nodup → (∀ y ∈ path, (∃ n, t.get? y = some n) ∧ TransGen t.Hangs y id) →
    t.bound ≤ path.length + k → t.get? x = some n → t.Beneath id x →
    (x, n) ∈ t.lineageFrom k id := by
  induction k with
  | zero =>
    intro id path hnd hpath hbound hx hb
    have hlen : (id :: path).length ≤ t.bound := by
      refine length_le_bound (List.nodup_cons.mpr ⟨fun hmem => ?_, hnd⟩) fun y hy => ?_
      · exact ht.acyclic id (hpath id hmem).2
      · rcases List.mem_cons.mp hy with rfl | hy
        · exact Linked.live_of_beneath hb hx
        · exact (hpath y hy).1
    rw [List.length_cons] at hlen
    omega
  | succ k ih =>
    intro id path hnd hpath hbound hx hb
    obtain ⟨m, hm⟩ := Linked.live_of_beneath hb hx
    rw [lineageFrom, hm]
    by_cases he : id = x
    · subst he
      rw [hm] at hx
      cases hx
      exact List.mem_cons_self ..
    · obtain ⟨p, hp, hpx⟩ := hb.hangs_of_ne he
      obtain ⟨m', hm', hmp⟩ := hp
      rw [hm] at hm'
      cases hm'
      simp only [hmp]
      refine List.mem_cons_of_mem _ (ih p (id :: path) ?_ ?_ ?_ hx hpx)
      · exact List.nodup_cons.mpr ⟨fun hmem => ht.acyclic id (hpath id hmem).2, hnd⟩
      · intro y hy
        rcases List.mem_cons.mp hy with rfl | hy
        · exact ⟨⟨m, hm⟩, TransGen.single ⟨m, hm, hmp⟩⟩
        · exact ⟨(hpath y hy).1, TransGen.tail (hpath y hy).2 ⟨m, hm, hmp⟩⟩
      · rw [List.length_cons]
        omega

/-- A lineage holds the nodes above a handle. -/
theorem Linked.mem_lineage_iff (ht : t.Linked) :
    (x, n) ∈ t.lineage id ↔ t.Beneath id x ∧ t.get? x = some n := by
  constructor
  · exact beneath_of_mem_lineageFrom
  · rintro ⟨hb, hx⟩
    exact mem_lineageFrom_of_path ht t.bound id [] List.nodup_nil (by simp) (by simp) hx hb

/-- A node is above another one exactly if the other one is beneath it. -/
theorem Linked.isAbove_iff (ht : t.Linked) (hx : t.get? x = some n) :
    t.isAbove x id = true ↔ t.Beneath id x := by
  unfold isAbove
  rw [List.contains_iff_mem, List.mem_map]
  constructor
  · rintro ⟨⟨y, m⟩, hmem, rfl⟩
    exact (ht.mem_lineage_iff.mp hmem).1
  · intro hb
    exact ⟨(x, n), ht.mem_lineage_iff.mpr ⟨hb, hx⟩, rfl⟩

end Tree

end StyleTree
