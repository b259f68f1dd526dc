import Mathlib.Data.List.Perm.Basic
import StyleTree.Proofs.Tree.Cut
import StyleTree.Walk

/-!
# What is pruned

Which nodes a walk has to prune is a matter of the tree that it starts from, and is said here twice.

*By the tree.*  The `Route` to a node below `id` is the list of the nodes above it, from `id` down
to its parent.  A node is `Foreign` if it carries a vendor and the context has another one: the
vendor that was given, or else the first one on the route.  It is `Pruned` if moreover no node above
it is foreign, which is the same as that no node above it is pruned (`pruned_iff`).

*By the branch.*  `Branch.pruned` and `Branch.spared` divide a branch into the handles where it is
cut and what remains of it.

* `Shows.mem_pruned_iff`: the two agree.
* `Shows.spared`: after the cuts, what remains of a branch is a whole branch of the tree.
* `Shows.mem_finished_iff`: what remains is what is neither pruned nor beneath a pruned node.
-/

namespace StyleTree

open Walk

variable [Data]

namespace Branch

/-- Branches can be reasoned about from the children upwards. -/
theorem induction {P : Branch → Prop} (h : ∀ id node bs, (∀ b ∈ bs, P b) → P ⟨id, node, bs⟩)
    (b : Branch) : P b := by
  match b with
  | ⟨id, node, bs⟩ => exact h id node bs fun b _ => induction h b

mutual

/-- The topmost handles of a branch that carry another vendor than the context. -/
def pruned (context : Option String) : Branch → List Handle
  | ⟨id, node, children⟩ =>
    if isForeign context node.vendor then [id] else prunedAll (context <|> node.vendor) children

/-- The handles where several branches are cut. -/
def prunedAll (context : Option String) : List Branch → List Handle
  | [] => []
  | b :: bs => pruned context b ++ prunedAll context bs

end

mutual

/-- What remains of a branch: the branch without what is pruned, or nothing. -/
def spared (context : Option String) : Branch → List Branch
  | ⟨id, node, children⟩ =>
    if isForeign context node.vendor then []
    else
      let rest := sparedAll (context <|> node.vendor) children
      [⟨id, { node with children := rest.map Branch.id }, rest⟩]

/-- What remains of several branches. -/
def sparedAll (context : Option String) : List Branch → List Branch
  | [] => []
  | b :: bs => spared context b ++ sparedAll context bs

end

mutual

/-- The handles of a branch, each after those below it. -/
def postorder : Branch → List Handle
  | ⟨id, _, children⟩ => postorderAll children ++ [id]

/-- The handles of several branches, one branch after the other. -/
def postorderAll : List Branch → List Handle
  | [] => []
  | b :: bs => postorder b ++ postorderAll bs

end

/-- The handles of what remains of a branch, each after those below it. -/
def finished (context : Option String) (b : Branch) : List Handle :=
  (b.spared context).flatMap postorder

section Equations

variable (context : Option String) (id : Handle) (node : Node) (bs : List Branch)

theorem prunedAll_eq_flatMap : prunedAll context bs = bs.flatMap (pruned context) := by
  induction bs with
  | nil => rfl
  | cons b bs ih => rw [prunedAll, ih, List.flatMap_cons]

theorem sparedAll_eq_flatMap : sparedAll context bs = bs.flatMap (spared context) := by
  induction bs with
  | nil => rfl
  | cons b bs ih => rw [sparedAll, ih, List.flatMap_cons]

theorem postorderAll_eq_flatMap : postorderAll bs = bs.flatMap postorder := by
  induction bs with
  | nil => rfl
  | cons b bs ih => rw [postorderAll, ih, List.flatMap_cons]

theorem pruned_mk : (Branch.mk id node bs).pruned context =
    if isForeign context node.vendor then [id]
    else bs.flatMap (pruned (context <|> node.vendor)) := by
  rw [pruned, prunedAll_eq_flatMap]

theorem spared_mk : (Branch.mk id node bs).spared context =
    if isForeign context node.vendor then []
    else [⟨id, { node with
      children := (bs.flatMap (spared (context <|> node.vendor))).map Branch.id },
      bs.flatMap (spared (context <|> node.vendor))⟩] := by
  rw [spared, sparedAll_eq_flatMap]

theorem postorder_mk : (Branch.mk id node bs).postorder = bs.flatMap postorder ++ [id] := by
  rw [postorder, postorderAll_eq_flatMap]

theorem finished_mk : (Branch.mk id node bs).finished context =
    if isForeign context node.vendor then []
    else bs.flatMap (finished (context <|> node.vendor)) ++ [id] := by
  rw [finished, spared_mk]
  split
  · rfl
  · rw [List.flatMap_singleton, postorder_mk, List.flatMap_assoc]
    rfl

end Equations

theorem postorder_perm (b : Branch) : b.postorder.Perm b.handles := by
  induction b using induction with
  | h id node bs ih =>
    rw [postorder_mk, handles_mk]
    exact (List.perm_append_singleton id _).trans ((List.Perm.flatMap_left bs ih).cons id)

variable {context : Option String} {b : Branch} {x : Handle}

theorem length_handles_le {bs : List Branch} (hb : b ∈ bs) :
    b.handles.length ≤ (bs.flatMap handles).length := by
  rw [List.flatMap_def]
  exact (List.sublist_flatten_of_mem (List.mem_map_of_mem hb)).length_le

theorem length_le_length_handles (bs : List Branch) : bs.length ≤ (bs.flatMap handles).length := by
  induction bs with
  | nil => exact Nat.le_refl _
  | cons b bs ih =>
    have hpos : 0 < b.handles.length := List.length_pos_of_mem b.id_mem_handles
    rw [List.flatMap_cons, List.length_append, List.length_cons]
    omega

theorem mem_handles_of_mem_pruned (h : x ∈ b.pruned context) : x ∈ b.handles := by
  induction b using induction generalizing context with
  | h id node bs ih =>
    rw [pruned_mk] at h
    rw [handles_mk, List.mem_cons]
    split at h
    · exact Or.inl (List.mem_singleton.mp h)
    · obtain ⟨b, hb, hx⟩ := List.mem_flatMap.mp h
      exact Or.inr (List.mem_flatMap.mpr ⟨b, hb, ih b hb hx⟩)

theorem mem_handles_of_mem_finished (h : x ∈ b.finished context) : x ∈ b.handles := by
  induction b using induction generalizing context with
  | h id node bs ih =>
    rw [finished_mk] at h
    rw [handles_mk, List.mem_cons]
    split at h
    · exact absurd h (by simp)
    · rcases List.mem_append.mp h with h | h
      · obtain ⟨b, hb, hx⟩ := List.mem_flatMap.mp h
        exact Or.inr (List.mem_flatMap.mpr ⟨b, hb, ih b hb hx⟩)
      · exact Or.inl (List.mem_singleton.mp h)

/-- The topmost node of a branch is either pruned or finished. -/
theorem id_mem_finished (h : b.id ∉ b.pruned context) : b.id ∈ b.finished context := by
  obtain ⟨id, node, bs⟩ := b
  rw [pruned_mk] at h
  rw [finished_mk]
  split at h
  · exact absurd (List.mem_singleton_self id) h
  · next hforeign =>
    rw [if_neg hforeign]
    exact List.mem_append_right _ (List.mem_singleton_self id)

end Branch

omit [Data] in
theorem isForeign_iff {context own : Option String} :
    isForeign context own = true ↔ ∃ v o, context = some v ∧ own = some o ∧ o ≠ v := by
  cases context <;> cases own <;> simp [isForeign]

namespace Tree

variable {t : Tree} {context : Option String} {id c x y : Handle} {n : Node} {path : List Node}
  {b : Branch}

/-! ## Foreign nodes -/

/-- The nodes above `x`, from `id` down to the parent of `x`. -/
inductive Route (t : Tree) : Handle → Handle → List Node → Prop
  | here (id : Handle) : Route t id id []
  | into {id c x : Handle} {n : Node} {path : List Node} (hid : t.get? id = some n)
      (hc : c ∈ n.children) (h : Route t c x path) : Route t id x (n :: path)

/-- A node at or below `id` carries a vendor, and the context has another one: the vendor that is
given, or else the first one on the way from `id` to the parent of the node. -/
def Foreign (t : Tree) (context : Option String) (id x : Handle) : Prop :=
  ∃ path n v o, t.Route id x path ∧ t.get? x = some n ∧
    (context <|> path.findSome? Node.vendor) = some v ∧ n.vendor = some o ∧ o ≠ v

/-- A node is foreign, and no node above it is, from `id` on. -/
def Pruned (t : Tree) (context : Option String) (id x : Handle) : Prop :=
  t.Foreign context id x ∧
    ∀ y, t.Beneath y id → t.Beneath x y → y ≠ x → ¬ t.Foreign context id y

theorem Route.beneath (ht : t.Linked) (h : t.Route id x path) : t.Beneath x id := by
  induction h with
  | here id => exact Beneath.refl t id
  | @into id c x n path hid hc _ ih =>
    exact ih.trans (Beneath.of_hangs (ht.hangs_of_lists id c ⟨n, hid, hc⟩))

theorem Foreign.beneath (ht : t.Linked) (h : t.Foreign context id x) : t.Beneath x id := by
  obtain ⟨path, n, v, o, hroute, -⟩ := h
  exact hroute.beneath ht

/-- A node is at the top of its subtree or beneath one child. -/
theorem Linked.eq_or_exists_child (ht : t.Linked) (hid : t.get? id = some n) (hx : t.Beneath x id) :
    x = id ∨ ∃ c ∈ n.children, t.Beneath x c := by
  rcases Relation.ReflTransGen.cases_tail hx with rfl | ⟨c, hxc, hc⟩
  · exact Or.inl rfl
  · obtain ⟨m, hm, hmem⟩ := ht.lists_of_hangs_of_live hc hid
    rw [hid] at hm
    cases hm
    exact Or.inr ⟨c, hmem, hxc⟩

theorem foreign_top (ht : t.Linked) (hid : t.get? id = some n) :
    t.Foreign context id id ↔ isForeign context n.vendor = true := by
  rw [isForeign_iff]
  constructor
  · rintro ⟨path, m, v, o, hroute, hm, hv, ho, hne⟩
    rw [hid] at hm
    cases hm
    cases hroute with
    | here => exact ⟨v, o, by simpa using hv, ho, hne⟩
    | into hid' hc h =>
      exact absurd (h.beneath ht) (ht.not_beneath_of_hangs (ht.hangs_of_lists _ _ ⟨_, hid', hc⟩))
  · rintro ⟨v, o, hv, ho, hne⟩
    exact ⟨[], n, v, o, Route.here id, hid, by simpa using hv, ho, hne⟩

theorem orElse_findSome?_cons (context : Option String) (n : Node) (path : List Node) :
    (context <|> (n :: path).findSome? Node.vendor) =
      ((context <|> n.vendor) <|> path.findSome? Node.vendor) := by
  rw [List.findSome?_cons]
  cases context <;> cases n.vendor <;> rfl

/-- Below a child the context is the one above it, or else the vendor of the parent. -/
theorem foreign_below (ht : t.Linked) (hid : t.get? id = some n) (hc : c ∈ n.children)
    (hx : t.Beneath x c) :
    t.Foreign context id x ↔ t.Foreign (context <|> n.vendor) c x := by
  have hhangs := ht.hangs_of_lists id c ⟨n, hid, hc⟩
  constructor
  · rintro ⟨path, m, v, o, hroute, hm, hv, ho, hne⟩
    cases hroute with
    | here => exact absurd hx (ht.not_beneath_of_hangs hhangs)
    | @into _ d _ n' path hid' hd h =>
      rw [hid] at hid'
      cases hid'
      have hdc : d = c := by
        by_contra hdc
        exact ht.not_beneath_of_siblings (ht.hangs_of_lists id d ⟨n, hid, hd⟩) hhangs hdc
          (h.beneath ht) hx
      subst hdc
      rw [orElse_findSome?_cons] at hv
      exact ⟨path, m, v, o, h, hm, hv, ho, hne⟩
  · rintro ⟨path, m, v, o, hroute, hm, hv, ho, hne⟩
    rw [← orElse_findSome?_cons] at hv
    exact ⟨n :: path, m, v, o, Route.into hid hc hroute, hm, hv, ho, hne⟩

/-- If a node or a node above it is foreign, then one of them is pruned: the topmost that is
foreign. -/
theorem exists_pruned (ht : t.Linked) (hx : t.Beneath x id) (hxy : t.Beneath x y)
    (hy : t.Beneath y id) (hforeign : t.Foreign context id y) :
    ∃ z, t.Beneath x z ∧ t.Pruned context id z := by
  induction hx using Relation.ReflTransGen.head_induction_on generalizing y with
  | refl =>
    obtain rfl := ht.eq_of_beneath_of_beneath hy hxy
    refine ⟨y, Beneath.refl t y, hforeign, fun z hz hz' hne => ?_⟩
    exact absurd (ht.eq_of_beneath_of_beneath hz hz') hne
  | @head x z hxz hz ih =>
    by_cases habove : ∃ u, t.Beneath z u ∧ t.Beneath u id ∧ t.Foreign context id u
    · obtain ⟨u, hzu, hu, hf⟩ := habove
      obtain ⟨v, hzv, hv⟩ := ih hzu hu hf
      exact ⟨v, (Beneath.of_hangs hxz).trans hzv, hv⟩
    · by_cases hyx : x = y
      · subst hyx
        refine ⟨x, Beneath.refl t x, hforeign, fun u hu hxu hne hf => habove ⟨u, ?_, hu, hf⟩⟩
        exact hxu.parent hne.symm hxz
      · exact absurd ⟨y, hxy.parent hyx hxz, hy, hforeign⟩ habove

/-- A node is pruned if it is foreign and no node above it is pruned. -/
theorem pruned_iff (ht : t.Linked) : t.Pruned context id x ↔ t.Foreign context id x ∧
    ∀ y, t.Beneath y id → t.Beneath x y → y ≠ x → ¬ t.Pruned context id y := by
  refine and_congr_right fun hx => ⟨fun h y hy hxy hne hp => h y hy hxy hne hp.1, ?_⟩
  intro h y hy hxy hne hf
  obtain ⟨z, hyz, hz⟩ := exists_pruned ht hy (Beneath.refl t y) hy hf
  refine h z (hz.1.beneath ht) (hxy.trans hyz) ?_ hz
  rintro rfl
  exact hne (ht.eq_of_beneath_of_beneath hyz hxy)

/-- The handles where a branch is cut are the pruned nodes. -/
theorem Shows.mem_pruned_iff (ht : t.Linked) (h : t.Shows b) :
    x ∈ b.pruned context ↔ t.Pruned context b.id x := by
  induction h generalizing context with
  | @mk id node bs hnode hchildren hbs ih =>
    rw [Branch.pruned_mk, Branch.id_mk]
    have htop : t.Foreign context id id ↔ isForeign context node.vendor = true :=
      foreign_top ht hnode
    split
    · next hforeign =>
      rw [List.mem_singleton]
      constructor
      · rintro rfl
        refine ⟨htop.mpr hforeign, fun y hy hxy hne => ?_⟩
        exact absurd (ht.eq_of_beneath_of_beneath hy hxy) hne
      · rintro ⟨hx, habove⟩
        by_contra hne
        exact habove id (Beneath.refl t id) (hx.beneath ht) (Ne.symm hne) (htop.mpr hforeign)
    · next hforeign =>
      rw [List.mem_flatMap]
      have hchild : ∀ b ∈ bs, b.id ∈ node.children := fun b hb =>
        hchildren ▸ List.mem_map_of_mem hb
      constructor
      · rintro ⟨b, hb, hx⟩
        obtain ⟨hf, habove⟩ := (ih b hb).mp hx
        have hxb := hf.beneath ht
        refine ⟨(foreign_below ht hnode (hchild b hb) hxb).mpr hf, fun y hy hxy hne hfy => ?_⟩
        -- what is above the node is the top, which is not foreign, or is beneath the same child
        rcases ht.eq_or_exists_child hnode hy with rfl | ⟨c, hc, hyc⟩
        · exact hforeign (htop.mp hfy)
        · have hcb : c = b.id := by
            by_contra hcb
            exact ht.not_beneath_of_siblings (ht.hangs_of_lists id c ⟨node, hnode, hc⟩)
              (ht.hangs_of_lists id b.id ⟨node, hnode, hchild b hb⟩) hcb (hxy.trans hyc) hxb
          subst hcb
          exact habove y hyc hxy hne ((foreign_below ht hnode hc hyc).mp hfy)
      · rintro ⟨hf, habove⟩
        rcases ht.eq_or_exists_child hnode (hf.beneath ht) with rfl | ⟨c, hc, hxc⟩
        · exact absurd (htop.mp hf) hforeign
        · rw [← hchildren] at hc
          obtain ⟨b, hb, rfl⟩ := List.mem_map.mp hc
          have hhangs := ht.hangs_of_lists id b.id ⟨node, hnode, hchild b hb⟩
          refine ⟨b, hb, (ih b hb).mpr ⟨(foreign_below ht hnode (hchild b hb) hxc).mp hf, ?_⟩⟩
          intro y hyb hxy hne hfy
          exact habove y (hyb.trans (Beneath.of_hangs hhangs)) hxy hne
            ((foreign_below ht hnode (hchild b hb) hyb).mpr hfy)

/-! ## What remains -/

theorem Shows.id_mem_pruned_iff (ht : t.Linked) (h : t.Shows b) :
    b.id ∈ b.pruned context ↔ isForeign context b.node.vendor = true := by
  rw [h.mem_pruned_iff ht, ← foreign_top ht h.get?]
  refine ⟨fun h => h.1, fun hf => ⟨hf, fun y hy hy' hne => ?_⟩⟩
  exact absurd (ht.eq_of_beneath_of_beneath hy hy') hne

theorem map_id_spared (context : Option String) (b : Branch) :
    (b.spared context).map Branch.id = if isForeign context b.node.vendor then [] else [b.id] := by
  obtain ⟨id, node, bs⟩ := b
  rw [Branch.spared_mk, Branch.node_mk]
  split <;> rfl

/-- The topmost handles of what remains of several branches, if the branches that go are marked. -/
theorem map_id_flatMap_spared {bs : List Branch} (gone : Handle → Bool)
    (h : ∀ b ∈ bs, gone b.id = isForeign context b.node.vendor) :
    (bs.flatMap (Branch.spared context)).map Branch.id =
      (bs.map Branch.id).filter fun c => !gone c := by
  induction bs with
  | nil => rfl
  | cons b bs ih =>
    rw [List.flatMap_cons, List.map_append, ih fun c hc => h c (List.mem_cons_of_mem _ hc),
      map_id_spared, List.map_cons, ← h b (List.mem_cons_self ..)]
    cases hb : gone b.id
    · rw [List.filter_cons_of_pos (by simp [hb])]
      rfl
    · rw [List.filter_cons_of_neg (by simp [hb])]
      rfl

/-- A tree that is cut where a branch is to be cut, and elsewhere only where nothing of the branch
is concerned, has what remains of the branch. -/
theorem Shows.spared (ht : t.Linked) (h : t.Shows b) {ps : List Handle}
    (hps : ∀ p ∈ ps, ∃ n, t.get? p = some n) (hin : ∀ p ∈ b.pruned context, p ∈ ps)
    (hout : ∀ p ∈ ps, p ∈ b.pruned context ∨ ∀ x ∈ b.handles, ¬ t.Beneath x p) :
    ∀ d ∈ b.spared context, (t.cut ps).Shows d := by
  induction h generalizing context with
  | @mk id node bs hnode hchildren hbs ih =>
    rw [Branch.spared_mk]
    split
    · simp
    · next hforeign =>
      rw [Branch.pruned_mk, if_neg hforeign] at hin hout
      have hhangs : ∀ b ∈ bs, t.Hangs b.id id := fun b hb =>
        ht.hangs_of_lists id b.id ⟨node, hnode, hchildren ▸ List.mem_map_of_mem hb⟩
      have hmem : ∀ b ∈ bs, ∀ x ∈ b.handles, x ∈ (Branch.mk id node bs).handles := by
        intro b hb x hx
        rw [Branch.handles_mk]
        exact List.mem_cons_of_mem _ (List.mem_flatMap.mpr ⟨b, hb, hx⟩)
      have hbeneath : ∀ b ∈ bs, ∀ p ∈ b.pruned (context <|> node.vendor), t.Beneath p b.id :=
        fun b hb p hp => ((hbs b hb).mem_handles_iff ht).mp (Branch.mem_handles_of_mem_pruned hp)
      -- each child is cut where it has to be, and the cuts elsewhere do not concern it
      have hin' : ∀ b ∈ bs, ∀ p ∈ b.pruned (context <|> node.vendor), p ∈ ps := fun b hb p hp =>
        hin p (List.mem_flatMap.mpr ⟨b, hb, hp⟩)
      have hout' : ∀ b ∈ bs, ∀ p ∈ ps, p ∈ b.pruned (context <|> node.vendor) ∨
          ∀ x ∈ b.handles, ¬ t.Beneath x p := by
        intro b hb p hp
        rcases hout p hp with hp' | hp'
        · obtain ⟨c, hc, hpc⟩ := List.mem_flatMap.mp hp'
          by_cases hid : b.id = c.id
          · rw [(hbs b hb).unique (hbs c hc) hid]
            exact Or.inl hpc
          · refine Or.inr fun x hx hxp => ?_
            exact ht.not_beneath_of_siblings (hhangs b hb) (hhangs c hc) hid
              (((hbs b hb).mem_handles_iff ht).mp hx) (hxp.trans (hbeneath c hc p hpc))
        · exact Or.inr fun x hx => hp' x (hmem b hb x hx)
      have htop : ∀ p ∈ ps, ¬ t.Beneath id p := by
        intro p hp hidp
        rcases hout p hp with hp' | hp'
        · obtain ⟨c, hc, hpc⟩ := List.mem_flatMap.mp hp'
          exact ht.not_beneath_of_hangs (hhangs c hc) (hidp.trans (hbeneath c hc p hpc))
        · exact hp' id (Branch.id_mem_handles ⟨id, node, bs⟩) hidp
      have hgone : ∀ b ∈ bs,
          decide (b.id ∈ ps) = isForeign (context <|> node.vendor) b.node.vendor := by
        intro b hb
        rw [Bool.eq_iff_iff, decide_eq_true_iff, ← (hbs b hb).id_mem_pruned_iff ht]
        refine ⟨fun hp => ?_, fun hp => hin' b hb _ hp⟩
        exact (hout' b hb b.id hp).resolve_right fun hno =>
          hno b.id (Branch.id_mem_handles b) (Beneath.refl t b.id)
      rintro d hd
      obtain rfl := List.mem_singleton.mp hd
      refine Shows.mk ?_ rfl ?_
      · rw [get?_cut_of_not_beneath ht hps htop, hnode, Option.map_some,
          map_id_flatMap_spared (fun c => decide (c ∈ ps)) hgone, hchildren]
        simp
      · intro d hd
        obtain ⟨b, hb, hdb⟩ := List.mem_flatMap.mp hd
        exact ih b hb (hin' b hb) (hout' b hb) d hdb

theorem Shows.live_of_mem_pruned (h : t.Shows b) : ∀ p ∈ b.pruned context, ∃ n, t.get? p = some n :=
  fun _ hp => h.live_of_mem (Branch.mem_handles_of_mem_pruned hp)

/-- Either a branch is cut at its topmost node and nothing remains, or what remains is a whole
branch at the same node. -/
theorem Shows.remains (ht : t.Linked) (h : t.Shows b) (context : Option String) :
    (b.pruned context = [b.id] ∧ b.finished context = []) ∨
      (b.id ∉ b.pruned context ∧ ∃ d, d.id = b.id ∧ (t.cut (b.pruned context)).Shows d ∧
        b.finished context = d.postorder) := by
  have hspared : ∀ d ∈ b.spared context, (t.cut (b.pruned context)).Shows d :=
    h.spared ht h.live_of_mem_pruned (fun p hp => hp) fun p hp => Or.inl hp
  have htop : b.id ∈ b.pruned context ↔ isForeign context b.node.vendor = true :=
    h.id_mem_pruned_iff ht
  obtain ⟨id, node, bs⟩ := b
  rw [Branch.spared_mk] at hspared
  rw [Branch.finished, Branch.spared_mk]
  by_cases hforeign : isForeign context node.vendor = true
  · rw [if_pos hforeign, Branch.pruned_mk, if_pos hforeign]
    exact Or.inl ⟨rfl, rfl⟩
  · rw [if_neg hforeign] at hspared ⊢
    refine Or.inr ⟨fun hmem => hforeign (htop.mp hmem), _, ?_,
      hspared _ (List.mem_singleton_self _), List.flatMap_singleton ..⟩
    rfl

/-- What is finished is what is neither pruned nor beneath a pruned node. -/
theorem Shows.mem_finished_iff (ht : t.Linked) (h : t.Shows b) :
    x ∈ b.finished context ↔ t.Beneath x b.id ∧ ∀ p ∈ b.pruned context, ¬ t.Beneath x p := by
  have hlive : ∀ p ∈ b.pruned context, ∃ n, t.get? p = some n := h.live_of_mem_pruned
  rcases h.remains ht context with ⟨hpruned, hfinished⟩ | ⟨htop, d, hid, hd, hfinished⟩
  · rw [hpruned, hfinished]
    simp
  · rw [hfinished, d.postorder_perm.mem_iff, hd.mem_handles_iff (ht.cut hlive), hid]
    -- the topmost node is beneath no pruned node, so nothing that is finished is
    have htop' : ∀ p ∈ b.pruned context, ¬ t.Beneath b.id p := by
      intro p hp hidp
      have hpid := (h.mem_handles_iff ht).mp (Branch.mem_handles_of_mem_pruned hp)
      exact htop (ht.eq_of_beneath_of_beneath hidp hpid ▸ hp)
    constructor
    · intro hx
      have hout : ∀ p ∈ b.pruned context, ¬ t.Beneath x p := fun p hp hxp =>
        htop' p hp (eq_of_beneath_cut ht hlive hp hxp hx ▸ hxp)
      exact ⟨(beneath_cut ht hlive hout).mp hx, hout⟩
    · rintro ⟨hx, hout⟩
      exact (beneath_cut ht hlive hout).mpr hx

theorem Shows.nodup_finished (ht : t.Linked) (h : t.Shows b) (context : Option String) :
    (b.finished context).Nodup := by
  rcases h.remains ht context with ⟨-, hfinished⟩ | ⟨-, d, -, hd, hfinished⟩
  · rw [hfinished]
    exact List.nodup_nil
  · rw [hfinished, d.postorder_perm.nodup_iff]
    exact hd.nodup_handles (ht.cut h.live_of_mem_pruned)

end Tree

end StyleTree
