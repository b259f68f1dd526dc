import StyleTree.Proofs.Edit.Outcome

/-!
# A new branch beside a node

The catalog changes a tree in one way: a branch of new nodes is put right before a node.  Seen from
the nodes that were there before, almost nothing happens.  They keep their attributes, their parents
and the ways up from them; only the parent of the node lists one more child.

* `Retains t t'`: the nodes of `t` are kept in `t'` with their attributes and data.  Pruning does
  that too.
* `Sprouts t p v b t'`: the branch `b` is put right before `v`, a child of `p`.
* `Sprouts.lists_iff`, `Sprouts.beneath_iff`: the old nodes after that.
* `Grown.sprouts`: an orphan that is placed before a node is such a branch.
-/

namespace StyleTree

variable [Data]

/-- The node on its own: its attributes and data, without links. -/
def Node.alone (n : Node) : Node :=
  { n with parent := none, children := [] }

namespace Branch

/-- The branch with another name for its topmost node. -/
def rename (name : Option String) : Branch → Branch
  | ⟨id, node, children⟩ => ⟨id, node.rename name, children⟩

@[simp] theorem id_rename (name : Option String) (b : Branch) : (b.rename name).id = b.id := by
  cases b
  rfl

@[simp] theorem node_rename (name : Option String) (b : Branch) :
    (b.rename name).node = b.node.rename name := by
  cases b
  rfl

@[simp] theorem handles_rename (name : Option String) (b : Branch) :
    (b.rename name).handles = b.handles := by
  obtain ⟨id, node, bs⟩ := b
  rw [rename, handles_mk, handles_mk]

theorem toSpec_rename (name : Option String) (b : Branch) :
    (b.rename name).toSpec = { b.toSpec with name } := by
  obtain ⟨id, node, bs⟩ := b
  rw [rename, toSpec_mk, toSpec_mk]
  rfl

@[simp] theorem node_withParent (parent : Option Handle) (b : Branch) :
    (b.withParent parent).node = { b.node with parent } := by
  cases b
  rfl

end Branch

namespace Tree

open Relation

variable {t t' t'' u : Tree} {id p q v x y : Handle} {n : Node} {b : Branch} {spec : Spec}

/-! ## Nodes that keep their attributes -/

/-- The vendor that a node carries. -/
def vendorAt (t : Tree) (x : Handle) : Option String :=
  (t.get? x).bind Node.vendor

theorem vendorAt_of_get? (h : t.get? x = some n) : t.vendorAt x = n.vendor := by
  rw [vendorAt, h, Option.bind_some]

/-- The nodes of the first tree are kept in the second one, with their attributes and data. -/
structure Retains (t t' : Tree) : Prop extends Kept t t' where
  alone : ∀ x n n', t.get? x = some n → t'.get? x = some n' → n'.alone = n.alone

theorem Retains.refl (t : Tree) : Retains t t where
  toKept := Kept.refl t
  alone := by
    intro x n n' hn hn'
    rw [hn] at hn'
    cases hn'
    rfl

theorem Retains.trans (h : Retains t t') (h' : Retains t' t'') : Retains t t'' where
  toKept := h.toKept.trans h'.toKept
  alone := by
    intro x n n'' hn hn''
    obtain ⟨n', hn', -⟩ := h.node x n hn
    rw [h'.alone x n' n'' hn' hn'', h.alone x n n' hn hn']

theorem Retains.get? (h : Retains t t') (hn : t.get? x = some n) :
    ∃ n', t'.get? x = some n' ∧ n'.alone = n.alone := by
  obtain ⟨n', hn', -⟩ := h.node x n hn
  exact ⟨n', hn', h.alone x n n' hn hn'⟩

theorem Retains.vendorAt (h : Retains t t') (hx : ∃ n, t.get? x = some n) :
    t'.vendorAt x = t.vendorAt x := by
  obtain ⟨n, hn⟩ := hx
  obtain ⟨n', hn', halone⟩ := h.get? hn
  have hvendor : n'.alone.vendor = n.alone.vendor := congrArg Node.vendor halone
  rw [vendorAt_of_get? hn, vendorAt_of_get? hn']
  exact hvendor

theorem Retains.prune (ht : t.Linked) (hid : t.get? id = some n) : Retains t (t.prune id) where
  root := root_prune t id
  node := by
    intro x m hm
    rw [get?_prune ht hid, hm, Option.map_some]
    split
    · exact ⟨_, rfl, Or.inr rfl⟩
    · exact ⟨_, rfl, Or.inl rfl⟩
  freed := fun _ hf => (Step.prune t id hid).freed ht.sound hf
  alone := by
    intro x m m' hm hm'
    rw [get?_prune ht hid, hm, Option.map_some] at hm'
    cases hm'
    split <;> rfl

/-- Renaming the topmost node of a whole branch renames the branch. -/
theorem Shows.rename (ht : t.Linked) (h : t.Shows b) (name : Option String) :
    (t.update b.id fun n => n.rename name).Shows (b.rename name) := by
  have hself := h.id_notMem_children ht
  cases h with
  | @mk id node bs hnode hchildren hbs =>
    refine Shows.mk ?_ hchildren fun d hd => (hbs d hd).congr fun x hx => ?_
    · rw [Branch.id_mk, get?_update, if_pos rfl, hnode, Option.map_some]
    · have hne : x ≠ id := by
        rintro rfl
        exact hself d hd hx
      rw [Branch.id_mk, get?_update, if_neg hne]

/-- Renaming gives no node a second name. -/
theorem family_rename {l : List Handle} (h : ∀ x ∈ l, ∀ m, t.get? x = some m → m.family = none)
    {name : Option String} (hx : x ∈ l)
    (hn : (t.update id fun n => n.rename name).get? x = some n) :
    n.family = none := by
  rw [get?_update] at hn
  split at hn
  · next hid =>
    obtain ⟨m, hm, rfl⟩ := Option.map_eq_some_iff.mp hn
    exact h x hx m (hid ▸ hm)
  · exact h x hx n hn

/-! ## A branch put before a node -/

/-- The branch `b` is made of new nodes and put right before `v` among the children of `p`;
everything else is as it was. -/
structure Sprouts (t : Tree) (p v : Handle) (b : Branch) (t' : Tree) : Prop where
  steps : Steps t t'
  shows : t'.Shows b
  fresh : ∀ x ∈ b.handles, t.get? x = none
  parent : b.node.parent = some p
  beside : ∃ np left right, t.get? p = some np ∧ np.children = left ++ v :: right ∧
    t'.get? p = some { np with children := left ++ b.id :: v :: right }
  frame : ∀ k n, t.get? k = some n → k ≠ p → t'.get? k = some n
  family : ∀ x ∈ b.handles, ∀ m, t'.get? x = some m → m.family = none

namespace Sprouts

theorem lists_self (h : t.Sprouts p v b t') : t.Lists p v := by
  obtain ⟨np, left, right, hp, hchildren, -⟩ := h.beside
  exact ⟨np, hp, by rw [hchildren]; simp⟩

/-- An old node keeps everything but, if it is the parent, its list of children. -/
theorem get?_old (h : t.Sprouts p v b t') (hn : t.get? x = some n) :
    ∃ n', t'.get? x = some n' ∧ n'.alone = n.alone ∧ n'.parent = n.parent ∧
      ∀ c, c ∈ n'.children ↔ c ∈ n.children ∨ x = p ∧ c = b.id := by
  by_cases hx : x = p
  · subst hx
    obtain ⟨np, left, right, hp, hchildren, hp'⟩ := h.beside
    rw [hn] at hp
    cases hp
    refine ⟨_, hp', rfl, rfl, fun c => ?_⟩
    rw [hchildren]
    simp only [List.mem_append, List.mem_cons]
    tauto
  · refine ⟨n, h.frame x n hn hx, rfl, rfl, fun c => ?_⟩
    simp [hx]

theorem retains (ht : t.Linked) (h : t.Sprouts p v b t') : Retains t t' where
  root := h.steps.root
  node := by
    intro x n hn
    obtain ⟨n', hn', -, hparent, -⟩ := h.get?_old hn
    exact ⟨n', hn', Or.inl hparent⟩
  freed := fun _ hf => h.steps.freed ht hf
  alone := by
    intro x n n' hn hn'
    obtain ⟨m, hm, halone, -⟩ := h.get?_old hn
    rw [hm] at hn'
    cases hn'
    exact halone

/-- An old node lists what it listed, and the parent of `v` also lists the new branch. -/
theorem lists_iff (h : t.Sprouts p v b t') (hq : ∃ n, t.get? q = some n) :
    t'.Lists q x ↔ t.Lists q x ∨ q = p ∧ x = b.id := by
  obtain ⟨n, hn⟩ := hq
  obtain ⟨n', hn', -, -, hchildren⟩ := h.get?_old hn
  unfold Lists
  simp only [hn, hn', Option.some.injEq, exists_eq_left', hchildren]

/-- An old node hangs where it hung. -/
theorem hangs_iff (h : t.Sprouts p v b t') (hx : ∃ n, t.get? x = some n) :
    t'.Hangs x q ↔ t.Hangs x q := by
  obtain ⟨n, hn⟩ := hx
  obtain ⟨n', hn', -, hparent, -⟩ := h.get?_old hn
  unfold Hangs
  simp only [hn, hn', Option.some.injEq, exists_eq_left', hparent]

/-- The ways up from an old node are as they were. -/
theorem beneath_iff (ht : t.Linked) (h : t.Sprouts p v b t') (hx : ∃ n, t.get? x = some n) :
    t'.Beneath x y ↔ t.Beneath x y := by
  refine ⟨(h.retains ht).toKept.beneath ht hx, fun hb => ReflTransGen.mono ?_ x y hb⟩
  exact fun a d ha => (h.hangs_iff ha.live).mpr ha

/-- What is beneath an old node is old or part of the new branch. -/
theorem live_or_mem (ht : t.Linked) (h : t.Sprouts p v b t') (hb : t'.Beneath x y)
    (hy : ∃ n, t.get? y = some n) : (∃ n, t.get? x = some n) ∨ x ∈ b.handles := by
  have ht' := h.steps.linked ht
  induction hb using ReflTransGen.head_induction_on with
  | refl => exact Or.inl hy
  | @head x z hxz _ ih =>
    rcases ih with hz | hz
    · obtain ⟨n', hn'⟩ := (h.retains ht).toKept.live hz
      rcases (h.lists_iff hz).mp (ht'.lists_of_hangs_of_live hxz hn') with hl | ⟨-, rfl⟩
      · exact Or.inl (ht.hangs_of_lists z x hl).live
      · exact Or.inr (Branch.id_mem_handles b)
    · rw [h.shows.mem_handles_iff ht'] at hz ⊢
      exact Or.inr ((Beneath.of_hangs hxz).trans hz)

theorem ne (ht : t.Linked) (h : t.Sprouts p v b t') : v ≠ p :=
  ht.ne_of_hangs (ht.hangs_of_lists p v h.lists_self)

/-- A branch that does not hold the parent is where it was. -/
theorem shows_of_not_beneath (ht : t.Linked) (h : t.Sprouts p v b t') {d : Branch} (hd : t.Shows d)
    (hp : ¬ t.Beneath p d.id) : t'.Shows d := by
  refine hd.congr fun x hx => ?_
  obtain ⟨n, hn⟩ := hd.live_of_mem hx
  have hxp : x ≠ p := by
    rintro rfl
    exact hp ((hd.mem_handles_iff ht).mp hx)
  rw [hn, h.frame x n hn hxp]

/-- So the branch of the node is where it was. -/
theorem shows_self (ht : t.Linked) (h : t.Sprouts p v b t') {d : Branch} (hd : t.Shows d)
    (hid : d.id = v) : t'.Shows d := by
  refine h.shows_of_not_beneath ht hd ?_
  rw [hid]
  exact ht.not_beneath_of_hangs (ht.hangs_of_lists p v h.lists_self)

/-- Renaming the topmost new node leaves everything else as it is. -/
theorem rename (ht : t.Linked) (h : t.Sprouts p v b t') (name : Option String) :
    t.Sprouts p v (b.rename name) (t'.update b.id fun n => n.rename name) := by
  have hold : ∀ k n, t.get? k = some n → k ≠ b.id := by
    rintro k n hk rfl
    rw [h.fresh _ (Branch.id_mem_handles b)] at hk
    exact absurd hk (by simp)
  refine ⟨h.steps.tail (Step.change _ _ (Node.retouch_rename name)), ?_, ?_, ?_, ?_, ?_, ?_⟩
  · exact h.shows.rename (h.steps.linked ht) name
  · rw [Branch.handles_rename]
    exact h.fresh
  · rw [Branch.node_rename]
    exact h.parent
  · obtain ⟨np, left, right, hp, hchildren, hp'⟩ := h.beside
    refine ⟨np, left, right, hp, hchildren, ?_⟩
    rw [get?_update, if_neg (hold p np hp), hp', Branch.id_rename]
  · intro k n hk hkp
    rw [get?_update, if_neg (hold k n hk), h.frame k n hk hkp]
  · intro x hx m hm
    rw [Branch.handles_rename] at hx
    exact family_rename h.family hx hm

end Sprouts

/-! ## How a branch gets there -/

/-- Renaming the topmost node of what has grown is growing it under the other name. -/
theorem Grown.rename (ht : t.Linked) (h : Grown t t' spec b) (name : Option String) :
    Grown t (t'.update b.id fun n => n.rename name) { spec with name } (b.rename name) := by
  refine ⟨h.steps.tail (Step.change _ _ (Node.retouch_rename name)), ?_, ?_, ?_, ?_, ?_, ?_, ?_, ?_⟩
  · exact h.shows.rename (h.steps.linked ht) name
  · rw [Branch.id_rename, h.id_eq]
  · rw [Branch.toSpec_rename, h.toSpec_eq]
  · rw [Branch.node_rename]
    exact h.orphan
  · intro k n hk
    have hne : k ≠ b.id := by
      rintro rfl
      rw [h.fresh _ (Branch.id_mem_handles b)] at hk
      exact absurd hk (by simp)
    rw [get?_update, if_neg hne, h.frame k n hk]
  · rw [Branch.handles_rename]
    exact h.fresh
  · intro x m hm
    rw [Branch.handles_rename]
    rw [get?_change] at hm
    obtain ⟨m', hm', -⟩ := Option.map_eq_some_iff.mp hm
    exact h.origin x m' hm'
  · intro x hx m hm
    rw [Branch.handles_rename] at hx
    exact family_rename h.family hx hm

omit [Data] in
/-- A handle inserted where another one is found goes right before it. -/
theorem exists_insertIdx_eq {l : List Handle} {i : Nat} (h : l.idxOf? v = some i) (c : Handle) :
    i ≤ l.length ∧ ∃ left right, l = left ++ v :: right ∧
      l.insertIdx i c = left ++ c :: v :: right := by
  induction l generalizing i with
  | nil => exact absurd h (by simp)
  | cons a l ih =>
    by_cases ha : a = v
    · subst ha
      obtain rfl : 0 = i := by simpa [List.idxOf?_cons] using h
      exact ⟨Nat.zero_le _, [], l, rfl, rfl⟩
    · rw [List.idxOf?_cons, if_neg (by simpa using ha)] at h
      obtain ⟨j, hj, rfl⟩ := Option.map_eq_some_iff.mp h
      obtain ⟨hle, left, right, hl, hins⟩ := ih hj
      refine ⟨Nat.succ_le_succ hle, a :: left, right, by rw [hl]; rfl, ?_⟩
      rw [List.insertIdx_succ_cons, hins]
      rfl

theorem Grown.not_hangs (h : Grown t u spec b) (q : Handle) : ¬ u.Hangs b.id q := by
  rintro ⟨m, hm, hq⟩
  rw [h.shows.get?] at hm
  cases hm
  rw [h.orphan] at hq
  exact absurd hq (by simp)

/-- Beside a new orphan, the node that an old node hangs from is old too. -/
theorem Grown.get?_of_hangs (ht : t.Linked) (hv : t.get? v = some n) (h : Grown t u spec b)
    (hhangs : u.Hangs v p) {np : Node} (hp : u.get? p = some np) : t.get? p = some np := by
  have hhangs' : t.Hangs v p := (Kept.of_frame ht h.steps h.frame).hangs ⟨n, hv⟩ hhangs
  rcases ht.lists_of_hangs v p hhangs' with hl | ⟨-, hf⟩
  · obtain ⟨m, hm⟩ := hl.live
    rw [hm, ← h.frame p m hm, hp]
  · rw [get?, (h.steps.freed ht hf).get?_eq_none] at hp
    exact absurd hp (by simp)

/-- A new orphan that is placed before an old node. -/
theorem Grown.sprouts (ht : t.Linked) (hv : t.get? v = some n) (h : Grown t u spec b) {i : Nat}
    (hsite : u.site? v = some (p, i)) (hplaced : Edit.Placed u p b.id (some i) false t') :
    t.Sprouts p v (b.withParent (some p)) t' := by
  have hu := h.steps.linked ht
  have hsteps := hplaced.steps hu
  obtain ⟨hhangs, np, hp, hindex⟩ := Edit.site?_eq_some hsite
  have hpnew : p ∉ b.handles := h.notMem_of_hangs ht hv p hhangs
  have hne : b.id ≠ p := fun he => hpnew (he ▸ Branch.id_mem_handles b)
  obtain ⟨hle, left, right, hchildren, hins⟩ := exists_insertIdx_eq hindex b.id
  -- the index is in range, so the branch goes to it and not to the end
  obtain ⟨-, -, -, hn⟩ := hplaced
  rw [unlink_of_orphan h.not_hangs] at hn hsteps ⊢
  rw [hp] at hn
  cases hn
  have hplace : Edit.placement np.children.length (some i) false = some i := by
    show some (min i np.children.length) = some i
    rw [Nat.min_eq_left hle]
  rw [hplace] at hsteps ⊢
  have hget := get?_link u hne (some i)
  refine ⟨h.steps.trans hsteps, ?_, ?_, ?_, ?_, ?_, ?_⟩
  · refine h.shows.withParent ?_ ?_ (h.shows.id_notMem_children hu)
    · rw [hget, if_neg hne, if_pos rfl, h.shows.get?, Option.map_some]
    · intro x hx hxid
      have hxp : x ≠ p := fun he => hpnew (he ▸ hx)
      rw [hget, if_neg hxp, if_neg hxid]
  · rw [Branch.handles_withParent]
    exact h.fresh
  · rw [Branch.node_withParent]
  · refine ⟨np, left, right, h.get?_of_hangs ht hv hhangs hp, hchildren, ?_⟩
    rw [hget, if_pos rfl, hp, Option.map_some, Branch.id_withParent, ← hins]
    rfl
  · intro k m hk hkp
    have hkb : k ≠ b.id := by
      rintro rfl
      rw [h.fresh _ (Branch.id_mem_handles b)] at hk
      exact absurd hk (by simp)
    rw [hget, if_neg hkp, if_neg hkb, h.frame k m hk]
  · intro x hx m hm
    rw [Branch.handles_withParent] at hx
    have hxp : x ≠ p := fun he => hpnew (he ▸ hx)
    rw [hget, if_neg hxp] at hm
    split at hm
    · obtain ⟨m', hm', rfl⟩ := Option.map_eq_some_iff.mp hm
      exact h.family b.id (Branch.id_mem_handles b) m' hm'
    · exact h.family x hx m hm

end Tree

end StyleTree
