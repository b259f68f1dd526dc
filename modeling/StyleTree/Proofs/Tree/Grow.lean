import StyleTree.Proofs.Tree.Step

/-!
# What a description grows into

Making nodes from a description inserts them one by one and links each below the one before.  The
result is described without that order: a whole branch of new nodes that reads back as the
description, next to an unchanged tree.  None of the new nodes has a second name.

* `Branch.toSpec`: the description of a branch.
* `Grown`: the outcome of growing one description, with the steps that led to it.
* `Linked.grow`, `Linked.growAll`: growing has that outcome.
-/

namespace StyleTree

variable [Data]

namespace Branch

mutual

/-- The description of a branch: its nodes without handles, links and data. -/
def toSpec : Branch → Spec
  | ⟨_, node, children⟩ => ⟨node.kind, node.name, node.value, node.block, toSpecs children⟩

/-- The descriptions of several branches. -/
def toSpecs : List Branch → List Spec
  | [] => []
  | b :: bs => toSpec b :: toSpecs bs

end

theorem toSpecs_eq_map (bs : List Branch) : toSpecs bs = bs.map toSpec := by
  induction bs with
  | nil => rfl
  | cons b bs ih => rw [toSpecs, ih, List.map_cons]

theorem toSpec_mk (id : Handle) (node : Node) (bs : List Branch) :
    (Branch.mk id node bs).toSpec =
      ⟨node.kind, node.name, node.value, node.block, bs.map toSpec⟩ := by
  rw [toSpec, toSpecs_eq_map]

/-- The description of a branch begins with that of its topmost node. -/
theorem toSpec_eq (b : Branch) :
    b.toSpec = { b.node.bare with children := b.children.map toSpec } := by
  obtain ⟨id, node, bs⟩ := b
  exact toSpec_mk id node bs

theorem id_mem_handles (b : Branch) : b.id ∈ b.handles := by
  obtain ⟨id, node, bs⟩ := b
  rw [handles_mk]
  exact List.mem_cons_self ..

/-- The branch with another parent for its topmost node. -/
def withParent (parent : Option Handle) : Branch → Branch
  | ⟨id, node, children⟩ => ⟨id, { node with parent }, children⟩

@[simp] theorem id_withParent (parent : Option Handle) (b : Branch) :
    (b.withParent parent).id = b.id := by
  cases b
  rfl

@[simp] theorem toSpec_withParent (parent : Option Handle) (b : Branch) :
    (b.withParent parent).toSpec = b.toSpec := by
  cases b
  rfl

@[simp] theorem handles_withParent (parent : Option Handle) (b : Branch) :
    (b.withParent parent).handles = b.handles := by
  obtain ⟨id, node, bs⟩ := b
  rw [withParent, handles_mk, handles_mk]

end Branch

namespace Tree

open Relation

variable {t t' : Tree} {id p c x : Handle} {n : Node} {b : Branch} {spec : Spec}

/-- A tree that has the nodes of a branch has the branch. -/
theorem Shows.congr (h : t.Shows b) (hsame : ∀ x ∈ b.handles, t'.get? x = t.get? x) :
    t'.Shows b := by
  induction h with
  | @mk id node bs hnode hchildren _ ih =>
    refine Shows.mk ?_ hchildren fun b hb => ih b hb fun x hx => hsame x ?_
    · rw [hsame id (Branch.id_mem_handles ⟨id, node, bs⟩), hnode]
    · rw [Branch.handles_mk]
      exact List.mem_cons_of_mem _ (List.mem_flatMap.mpr ⟨b, hb, hx⟩)

/-- A whole branch stays whole when its topmost node gets another parent and nothing else below it
changes. -/
theorem Shows.withParent (h : t.Shows b) {parent : Option Handle}
    (htop : t'.get? b.id = some { b.node with parent })
    (hsame : ∀ x ∈ b.handles, x ≠ b.id → t'.get? x = t.get? x)
    (hself : ∀ d ∈ b.children, b.id ∉ d.handles) : t'.Shows (b.withParent parent) := by
  obtain ⟨hnode, hchildren, hbs⟩ := h
  refine Shows.mk htop hchildren fun d hd => (hbs d hd).congr fun x hx => hsame x ?_ ?_
  · rw [Branch.handles_mk]
    exact List.mem_cons_of_mem _ (List.mem_flatMap.mpr ⟨d, hd, hx⟩)
  · rintro rfl
    exact hself d hd hx

/-- The topmost node of a whole branch is in no branch below it. -/
theorem Shows.id_notMem_children (ht : t.Linked) (h : t.Shows b) :
    ∀ d ∈ b.children, b.id ∉ d.handles := by
  cases h with
  | @mk id node bs hnode hchildren hbs =>
    intro d hd hmem
    have hlist : d.id ∈ node.children := hchildren ▸ List.mem_map_of_mem hd
    exact ht.not_beneath_of_hangs (ht.hangs_of_lists id d.id ⟨node, hnode, hlist⟩)
      (((hbs d hd).mem_handles_iff ht).mp hmem)

/-- The outcome of growing a description: a whole branch of new nodes that reads back as the
description, and everything else as before. -/
structure Grown (t t' : Tree) (spec : Spec) (b : Branch) : Prop where
  steps : Steps t t'
  shows : t'.Shows b
  id_eq : b.id = t.next
  toSpec_eq : b.toSpec = spec
  orphan : b.node.parent = none
  frame : ∀ k n, t.get? k = some n → t'.get? k = some n
  fresh : ∀ x ∈ b.handles, t.get? x = none
  origin : ∀ x n, t'.get? x = some n → t.get? x ≠ none ∨ x ∈ b.handles
  family : ∀ x ∈ b.handles, ∀ m, t'.get? x = some m → m.family = none

/-- The outcome of growing descriptions below a node: whole branches of new nodes, one for each, at
the end of its children. -/
structure GrownAll (t t' : Tree) (parent : Handle) (n : Node) (specs : List Spec)
    (bs : List Branch) : Prop where
  steps : Steps t t'
  shows : ∀ b ∈ bs, t'.Shows b
  toSpec_eq : bs.map Branch.toSpec = specs
  parent_eq : t'.get? parent = some { n with children := n.children ++ bs.map Branch.id }
  frame : ∀ k n, t.get? k = some n → k ≠ parent → t'.get? k = some n
  fresh : ∀ b ∈ bs, ∀ x ∈ b.handles, t.get? x = none
  origin : ∀ x n, t'.get? x = some n → t.get? x ≠ none ∨ ∃ b ∈ bs, x ∈ b.handles
  family : ∀ b ∈ bs, ∀ x ∈ b.handles, ∀ m, t'.get? x = some m → m.family = none

/-- The parent of an old node is not among the new ones. -/
theorem Grown.notMem_of_hangs (ht : t.Linked) (h : Grown t t' spec b) (hx : t.get? x = some n)
    (p : Handle) (hp : t'.Hangs x p) : p ∉ b.handles := by
  intro hmem
  obtain ⟨m, hm, hmp⟩ := hp
  rw [h.frame x n hx] at hm
  cases hm
  rcases ht.lists_of_hangs x p ⟨n, hx, hmp⟩ with hl | ⟨-, hf⟩
  · obtain ⟨m, hm⟩ := hl.live
    rw [h.fresh p hmem] at hm
    exact absurd hm (by simp)
  · obtain ⟨m, hm⟩ := h.shows.live_of_mem hmem
    rw [get?, (h.steps.freed ht hf).get?_eq_none] at hm
    exact absurd hm (by simp)

/-- A new orphan linked last below an old node. -/
theorem Grown.link (ht : t.Linked) (hp : t.get? p = some n) (h : Grown t t' spec b) :
    GrownAll t (t'.link p b.id none) p n [spec] [b.withParent (some p)] := by
  have ht' : t'.Linked := h.steps.linked ht
  have hp' : t'.get? p = some n := h.frame p n hp
  have hfreshp : p ∉ b.handles := by
    intro hmem
    rw [h.fresh p hmem] at hp
    exact absurd hp (by simp)
  have hne : b.id ≠ p := by
    rintro rfl
    exact hfreshp (Branch.id_mem_handles b)
  have hb : ¬ t'.Beneath p b.id := fun hb => hfreshp ((h.shows.mem_handles_iff ht').mpr hb)
  refine ⟨h.steps.tail ?_, ?_, ?_, ?_, ?_, ?_, ?_, ?_⟩
  · exact Step.link t' p b.id none hp' h.shows.get? h.orphan (by simp) hb
  · intro b' hb'
    obtain rfl := List.mem_singleton.mp hb'
    refine h.shows.withParent ?_ ?_ (h.shows.id_notMem_children ht')
    · rw [get?_link t' hne, if_neg hne, if_pos rfl, h.shows.get?, Option.map_some]
    · intro x hx hxid
      have hxp : x ≠ p := fun he => hfreshp (he ▸ hx)
      rw [get?_link t' hne, if_neg hxp, if_neg hxid]
  · rw [List.map_singleton, Branch.toSpec_withParent, h.toSpec_eq]
  · rw [get?_link t' hne, if_pos rfl, hp', Option.map_some, List.map_singleton,
      Branch.id_withParent]
    rfl
  · intro k m hk hkp
    have hkb : k ≠ b.id := by
      rintro rfl
      rw [h.fresh _ (Branch.id_mem_handles b)] at hk
      exact absurd hk (by simp)
    rw [get?_link t' hne, if_neg hkp, if_neg hkb, h.frame k m hk]
  · intro b' hb' x hx
    obtain rfl := List.mem_singleton.mp hb'
    rw [Branch.handles_withParent] at hx
    exact h.fresh x hx
  · intro x m hm
    have hlive : ∃ m', t'.get? x = some m' := by
      rw [get?_link t' hne] at hm
      split at hm
      · next hxp => exact ⟨n, hxp ▸ hp'⟩
      · split at hm
        · next hxb => exact ⟨b.node, hxb ▸ h.shows.get?⟩
        · exact ⟨m, hm⟩
    obtain ⟨m', hm'⟩ := hlive
    refine (h.origin x m' hm').imp_right fun hx => ⟨_, List.mem_singleton_self _, ?_⟩
    rwa [Branch.handles_withParent]
  · intro b' hb' x hx m hm
    obtain rfl := List.mem_singleton.mp hb'
    rw [Branch.handles_withParent] at hx
    have hxp : x ≠ p := fun he => hfreshp (he ▸ hx)
    rw [get?_link t' hne, if_neg hxp] at hm
    split at hm
    · obtain ⟨m', hm', rfl⟩ := Option.map_eq_some_iff.mp hm
      exact h.family b.id (Branch.id_mem_handles b) m' hm'
    · exact h.family x hx m hm

/-- Growing some descriptions and then more of them grows all of them. -/
theorem GrownAll.trans {t'' : Tree} {specs specs' : List Spec} {bs bs' : List Branch}
    (h : GrownAll t t' p n specs bs) (hp : t.get? p = some n)
    (h' : GrownAll t' t'' p { n with children := n.children ++ bs.map Branch.id } specs' bs') :
    GrownAll t t'' p n (specs ++ specs') (bs ++ bs') := by
  have hold : ∀ b ∈ bs, ∀ x ∈ b.handles, x ≠ p := by
    rintro b hb x hx rfl
    rw [h.fresh b hb x hx] at hp
    exact absurd hp (by simp)
  refine ⟨h.steps.trans h'.steps, ?_, ?_, ?_, ?_, ?_, ?_, ?_⟩
  · intro b hb
    rcases List.mem_append.mp hb with hb | hb
    · refine (h.shows b hb).congr fun x hx => ?_
      obtain ⟨m, hm⟩ : ∃ m, t'.get? x = some m := (h.shows b hb).live_of_mem hx
      rw [hm]
      exact h'.frame x m hm (hold b hb x hx)
    · exact h'.shows b hb
  · rw [List.map_append, h.toSpec_eq, h'.toSpec_eq]
  · rw [h'.parent_eq, List.map_append, ← List.append_assoc]
  · exact fun k m hk hkp => h'.frame k m (h.frame k m hk hkp) hkp
  · intro b hb x hx
    rcases List.mem_append.mp hb with hb | hb
    · exact h.fresh b hb x hx
    · have hx' := h'.fresh b hb x hx
      cases hk : t.get? x with
      | none => rfl
      | some m =>
        by_cases hxp : x = p
        · subst hxp
          rw [h.parent_eq] at hx'
          exact absurd hx' (by simp)
        · rw [h.frame x m hk hxp] at hx'
          exact absurd hx' (by simp)
  · intro x m hm
    rcases h'.origin x m hm with hx | ⟨b, hb, hx⟩
    · obtain ⟨m', hm'⟩ := Option.ne_none_iff_exists'.mp hx
      refine (h.origin x m' hm').imp_right ?_
      rintro ⟨b, hb, hx⟩
      exact ⟨b, List.mem_append_left _ hb, hx⟩
    · exact Or.inr ⟨b, List.mem_append_right _ hb, hx⟩
  · intro b hb x hx m hm
    rcases List.mem_append.mp hb with hb | hb
    · obtain ⟨m', hm'⟩ := (h.shows b hb).live_of_mem hx
      rw [h'.frame x m' hm' (hold b hb x hx)] at hm
      obtain rfl : m' = m := Option.some.inj hm
      exact h.family b hb x hx m' hm'
    · exact h'.family b hb x hx m hm

mutual

/-- Growing a description. -/
theorem Linked.grow {t : Tree} (ht : t.Linked) (spec : Spec) :
    ∃ b, Grown t (t.grow spec) spec b := by
  obtain ⟨kind, name, value, block, children⟩ := spec
  have hstep : Step t (t.insert (Node.ofSpec ⟨kind, name, value, block, []⟩)) :=
    Step.insert t _ rfl rfl rfl
  have hget := get?_insert ht.sound (Node.ofSpec ⟨kind, name, value, block, []⟩)
  obtain ⟨bs, hbs⟩ := (hstep.linked ht).growAll children (p := t.next)
    (by rw [hget, if_pos rfl])
  have hnext : ∀ k m, t.get? k = some m → k ≠ t.next := by
    rintro k m hk rfl
    rw [get?_next ht.sound] at hk
    exact absurd hk (by simp)
  have hold : ∀ k m, t.get? k = some m →
      (t.insert (Node.ofSpec ⟨kind, name, value, block, []⟩)).get? k = some m := by
    intro k m hk
    rw [hget, if_neg (hnext k m hk), hk]
  let top : Node := { Node.ofSpec ⟨kind, name, value, block, []⟩ with children := bs.map Branch.id }
  refine ⟨⟨t.next, top, bs⟩, ?_, ?_, rfl, ?_, rfl, ?_, ?_, ?_, ?_⟩
  · rw [Tree.grow]
    exact (ReflTransGen.single hstep).trans hbs.steps
  · rw [Tree.grow]
    exact Shows.mk hbs.parent_eq rfl hbs.shows
  · rw [Branch.toSpec_mk, hbs.toSpec_eq]
    rfl
  · intro k m hk
    rw [Tree.grow]
    exact hbs.frame k m (hold k m hk) (hnext k m hk)
  · intro x hx
    rw [Branch.handles_mk] at hx
    rcases List.mem_cons.mp hx with rfl | hx
    · exact get?_next ht.sound
    · obtain ⟨b, hb, hx⟩ := List.mem_flatMap.mp hx
      have hfresh := hbs.fresh b hb x hx
      rw [hget] at hfresh
      split at hfresh
      · exact absurd hfresh (by simp)
      · exact hfresh
  · intro x m hm
    rw [Tree.grow] at hm
    rw [Branch.handles_mk]
    rcases hbs.origin x m hm with hx | ⟨b, hb, hx⟩
    · rw [hget] at hx
      split at hx
      · next hnew => exact Or.inr (hnew ▸ List.mem_cons_self ..)
      · exact Or.inl hx
    · exact Or.inr (List.mem_cons_of_mem _ (List.mem_flatMap.mpr ⟨b, hb, hx⟩))
  · intro x hx m hm
    rw [Tree.grow] at hm
    rw [Branch.handles_mk] at hx
    rcases List.mem_cons.mp hx with rfl | hx
    · rw [hbs.parent_eq] at hm
      cases hm
      rfl
    · obtain ⟨b, hb, hx⟩ := List.mem_flatMap.mp hx
      exact hbs.family b hb x hx m hm

/-- Growing several descriptions below a node. -/
theorem Linked.growAll {t : Tree} {p : Handle} {n : Node} (ht : t.Linked) (specs : List Spec)
    (hp : t.get? p = some n) :
    ∃ bs, GrownAll t (t.growAll p specs) p n specs bs := by
  match specs with
  | [] =>
    refine ⟨[], ReflTransGen.refl, by simp, rfl, ?_, fun k m hk _ => ?_, by simp, fun k m hk => ?_,
      by simp⟩
    · rw [Tree.growAll, hp, List.map_nil, List.append_nil]
    · rw [Tree.growAll, hk]
    · rw [Tree.growAll] at hk
      exact Or.inl (by simp [hk])
  | spec :: rest =>
    obtain ⟨b, hb⟩ := ht.grow spec
    have hone := hb.link ht hp
    rw [hb.id_eq] at hone
    obtain ⟨bs, hbs⟩ := (hone.steps.linked ht).growAll rest hone.parent_eq
    rw [Tree.growAll]
    exact ⟨_, hone.trans hp hbs⟩

end

theorem Linked.steps_grow (ht : t.Linked) (spec : Spec) : Steps t (t.grow spec) := by
  obtain ⟨b, hb⟩ := ht.grow spec
  exact hb.steps

end Tree

end StyleTree
