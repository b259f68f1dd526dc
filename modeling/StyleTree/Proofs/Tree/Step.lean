import StyleTree.Proofs.Tree.Unfold

/-!
# Steps

Every operation on a tree is made of seven changes.  A `Step` is one of them together with what the
operation has made sure of before: a node is linked only if it is an orphan and nothing above the
place it goes to, and it is pruned or emptied only if it is there.

For each change this module says which halves of edges are left after it, `hangs_…` for the
children's half and `lists_…` for the parents'.  Six of the changes add no edge, so `Linked.shrink`
reduces them to the agreement of the halves; linking adds one edge, and `not_transGen_link` shows
that it closes no circle.

* `Step.linked`: a step keeps a linked tree linked.
* `Step.freed`, `Step.root`: a step brings no freed handle back and keeps the root.
* `Step.labelled`: a step lets no node keep another vendor than its name carries.
* `Step.kind`, `Step.rooted`: a step changes no kind, so the root stays a document.
-/

namespace StyleTree

variable [Data]

/-- The vendor that a node keeps is the one that its name carries. -/
def Node.Labelled (n : Node) : Prop :=
  n.vendor = n.name.bind vendorOfName

/-- A change of attributes and data: it leaves the kind and the links of a node alone and its vendor
right. -/
structure Node.Retouch (f : Node → Node) : Prop where
  kind : ∀ n, (f n).kind = n.kind
  parent : ∀ n, (f n).parent = n.parent
  children : ∀ n, (f n).children = n.children
  labelled : ∀ n, n.Labelled → (f n).Labelled

theorem Node.retouch_rename (name : Option String) : Node.Retouch fun n => n.rename name :=
  ⟨fun _ => rfl, fun _ => rfl, fun _ => rfl, fun _ _ => rfl⟩

theorem Node.retouch_value (value : String) :
    Node.Retouch fun n => { n with value := some value } :=
  ⟨fun _ => rfl, fun _ => rfl, fun _ => rfl, fun _ h => h⟩

theorem Node.retouch_family (family : String) :
    Node.Retouch fun n => { n with family := some family } :=
  ⟨fun _ => rfl, fun _ => rfl, fun _ => rfl, fun _ h => h⟩

theorem Node.retouch_data (g : Std.TreeMap String Datum → Std.TreeMap String Datum) :
    Node.Retouch fun n => { n with data := g n.data } :=
  ⟨fun _ => rfl, fun _ => rfl, fun _ => rfl, fun _ h => h⟩

namespace Tree

open Relation

variable {t t' : Tree} {id p c q x y : Handle} {n : Node}

/-- The tree with the children of a node let go: the node has none, and they have no parent. -/
def release (t : Tree) (id : Handle) (old : List Handle) : Tree :=
  old.foldl (fun t c => t.update c fun n => { n with parent := none })
    (t.update id fun n => { n with children := [] })

/-- One of the changes that operations on trees are made of. -/
inductive Step : Tree → Tree → Prop
  /-- A new node without parent and children. -/
  | insert (t : Tree) (node : Node) (hparent : node.parent = none) (hchildren : node.children = [])
      (hlabel : node.Labelled) : Step t (t.insert node)
  /-- A change of a node that leaves its links alone. -/
  | change (t : Tree) (id : Handle) {f : Node → Node} (hf : Node.Retouch f) : Step t (t.update id f)
  /-- An orphan linked to a node that is not beneath it. -/
  | link (t : Tree) (p c : Handle) (position : Option Nat) {np nc : Node}
      (hp : t.get? p = some np) (hc : t.get? c = some nc) (horphan : nc.parent = none)
      (hposition : ∀ i, position = some i → i ≤ np.children.length) (hb : ¬ t.Beneath p c) :
      Step t (t.link p c position)
  | unlink (t : Tree) (id : Handle) : Step t (t.unlink id)
  | prune (t : Tree) (id : Handle) {n : Node} (hid : t.get? id = some n) : Step t (t.prune id)
  | release (t : Tree) (id : Handle) {n : Node} (hid : t.get? id = some n) :
      Step t (t.release id n.children)
  | compact (t : Tree) : Step t t.compact

/-! ## Halves of edges, node by node -/

/-- Where every node is changed on its own, so is the children's half of its edge. -/
theorem hangs_of_map {g : Handle → Node → Node} (h : ∀ k, t'.get? k = (t.get? k).map (g k)) :
    t'.Hangs x p ↔ ∃ n, t.get? x = some n ∧ (g x n).parent = some p := by
  unfold Hangs
  rw [h x]
  cases t.get? x <;> simp

/-- Where every node is changed on its own, so are the parents' halves of its edges. -/
theorem lists_of_map {g : Handle → Node → Node} (h : ∀ k, t'.get? k = (t.get? k).map (g k)) :
    t'.Lists p x ↔ ∃ n, t.get? p = some n ∧ x ∈ (g p n).children := by
  unfold Lists
  rw [h p]
  cases t.get? p <;> simp

/-- A tree with fewer edges is linked if the halves of what is left agree. -/
theorem Linked.shrink (ht : t.Linked) (hsound : t'.arena.Sound) (hroot : t'.root = t.root)
    (hlive : ∃ n, t'.get? t.root = some n)
    (hsub : ∀ k n', t'.get? k = some n' → ∃ n, t.get? k = some n ∧ n'.children.Sublist n.children)
    (hhangs : ∀ x p, t'.Hangs x p → t.Hangs x p) (hdown : ∀ p x, t'.Lists p x → t'.Hangs x p)
    (hup : ∀ x p, t'.Hangs x p → t'.Lists p x ∨ x = t.root ∧ t'.arena.Freed p) : t'.Linked where
  sound := hsound
  root := by rw [hroot]; exact hlive
  hangs_of_lists := hdown
  nodup := by
    intro k n' hn'
    obtain ⟨n, hn, hs⟩ := hsub k n' hn'
    exact (ht.nodup k n hn).sublist hs
  lists_of_hangs := by rw [hroot]; exact hup
  acyclic := fun x hx => ht.acyclic x (TransGen.mono hhangs x x hx)

/-! ## A new node -/

theorem hangs_insert (ht : t.arena.Sound) {node : Node} (hparent : node.parent = none) :
    (t.insert node).Hangs x p ↔ t.Hangs x p := by
  unfold Hangs
  rw [get?_insert ht]
  by_cases hx : x = t.next
  · subst hx
    rw [if_pos rfl, get?_next ht]
    simp [hparent]
  · rw [if_neg hx]

theorem lists_insert (ht : t.arena.Sound) {node : Node} (hchildren : node.children = []) :
    (t.insert node).Lists p x ↔ t.Lists p x := by
  unfold Lists
  rw [get?_insert ht]
  by_cases hp : p = t.next
  · subst hp
    rw [if_pos rfl, get?_next ht]
    simp [hchildren]
  · rw [if_neg hp]

theorem Linked.insert (ht : t.Linked) {node : Node} (hparent : node.parent = none)
    (hchildren : node.children = []) : (t.insert node).Linked where
  sound := ht.sound.insert node
  root := by
    obtain ⟨n, hn⟩ := ht.root
    have hne : t.root ≠ t.next := by
      intro he
      rw [he, get?_next ht.sound] at hn
      exact absurd hn (by simp)
    exact ⟨n, by rw [root_insert, get?_insert ht.sound, if_neg hne, hn]⟩
  hangs_of_lists := by
    intro p x h
    rw [lists_insert ht.sound hchildren] at h
    exact (hangs_insert ht.sound hparent).mpr (ht.hangs_of_lists p x h)
  nodup := by
    intro p n hn
    rw [get?_insert ht.sound] at hn
    split at hn
    · cases hn
      rw [hchildren]
      exact List.nodup_nil
    · exact ht.nodup p n hn
  lists_of_hangs := by
    intro x p h
    rw [hangs_insert ht.sound hparent] at h
    rcases ht.lists_of_hangs x p h with hl | ⟨hx, hf⟩
    · exact Or.inl ((lists_insert ht.sound hchildren).mpr hl)
    · exact Or.inr ⟨hx, hf.insert ht.sound node⟩
  acyclic := fun x hx =>
    ht.acyclic x (TransGen.mono (fun _ _ => (hangs_insert ht.sound hparent).mp) x x hx)

/-! ## A change of attributes -/

theorem get?_change (t : Tree) (id : Handle) (f : Node → Node) (k : Handle) :
    (t.update id f).get? k = (t.get? k).map fun n => if k = id then f n else n := by
  rw [get?_update]
  by_cases hk : k = id
  · rw [if_pos hk, hk]
    simp
  · rw [if_neg hk]
    simp [hk]

theorem hangs_change {f : Node → Node} (hf : ∀ n, (f n).parent = n.parent) :
    (t.update id f).Hangs x p ↔ t.Hangs x p := by
  rw [hangs_of_map (get?_change t id f)]
  refine exists_congr fun n => and_congr_right fun _ => ?_
  by_cases hx : x = id
  · rw [if_pos hx, hf]
  · rw [if_neg hx]

theorem lists_change {f : Node → Node} (hf : ∀ n, (f n).children = n.children) :
    (t.update id f).Lists p x ↔ t.Lists p x := by
  rw [lists_of_map (get?_change t id f)]
  refine exists_congr fun n => and_congr_right fun _ => ?_
  by_cases hp : p = id
  · rw [if_pos hp, hf]
  · rw [if_neg hp]

theorem Linked.change (ht : t.Linked) (id : Handle) {f : Node → Node} (hf : Node.Retouch f) :
    (t.update id f).Linked := by
  have hh : ∀ {x p}, (t.update id f).Hangs x p ↔ t.Hangs x p := hangs_change hf.parent
  have hl : ∀ {p x}, (t.update id f).Lists p x ↔ t.Lists p x := lists_change hf.children
  refine ht.shrink (ht.sound.modify id f) rfl ?_ ?_ (fun x p => hh.mp) ?_ ?_
  · obtain ⟨n, hn⟩ := ht.root
    rw [get?_change, hn]
    exact ⟨_, rfl⟩
  · intro k n' hn'
    rw [get?_change] at hn'
    obtain ⟨n, hn, rfl⟩ := Option.map_eq_some_iff.mp hn'
    refine ⟨n, hn, ?_⟩
    by_cases hk : k = id
    · rw [if_pos hk, hf.children]
    · rw [if_neg hk]
  · exact fun p x h => hh.mpr (ht.hangs_of_lists p x (hl.mp h))
  · intro x p h
    rcases ht.lists_of_hangs x p (hh.mp h) with hp | ⟨hx, hf⟩
    · exact Or.inl (hl.mpr hp)
    · exact Or.inr ⟨hx, hf.modify id f⟩
/-! ## An orphan linked -/

omit [Data] in
theorem place_perm (c : Handle) {position : Option Nat} {l : List Handle}
    (hposition : ∀ i, position = some i → i ≤ l.length) : (place c position l).Perm (c :: l) := by
  unfold place
  cases position with
  | none => exact List.perm_append_singleton c l
  | some i => exact List.perm_insertIdx c l (hposition i rfl)

section Link

variable {position : Option Nat} {np nc : Node}

theorem hangs_link (hne : c ≠ p) (hc : t.get? c = some nc) (horphan : nc.parent = none) :
    (t.link p c position).Hangs x q ↔ t.Hangs x q ∨ x = c ∧ q = p := by
  unfold Hangs
  rw [get?_link t hne]
  by_cases hxp : x = p
  · subst hxp
    rw [if_pos rfl]
    cases t.get? x <;> simp [hne.symm]
  · rw [if_neg hxp]
    by_cases hxc : x = c
    · subst hxc
      rw [if_pos rfl, hc]
      simp [horphan, eq_comm]
    · rw [if_neg hxc]
      simp [hxc]

theorem lists_link (hne : c ≠ p) (hp : t.get? p = some np)
    (hposition : ∀ i, position = some i → i ≤ np.children.length) :
    (t.link p c position).Lists q x ↔ t.Lists q x ∨ x = c ∧ q = p := by
  unfold Lists
  rw [get?_link t hne]
  by_cases hqp : q = p
  · subst hqp
    rw [if_pos rfl, hp]
    simp [(place_perm c hposition).mem_iff, or_comm]
  · rw [if_neg hqp]
    by_cases hqc : q = c
    · subst hqc
      rw [if_pos rfl]
      cases t.get? q <;> simp [hne]
    · rw [if_neg hqc]
      simp [hqp]

/-- A new edge from a node to one that is not beneath it closes no circle: a path that uses it comes
back to its upper end only through the old edges, and these do not lead from there to its lower
end. -/
theorem not_transGen_link (ht : t.Linked) (hc : t.get? c = some nc) (horphan : nc.parent = none)
    (hb : ¬ t.Beneath p c) : ¬ TransGen (t.link p c position).Hangs x x := by
  have hne : c ≠ p := fun he => hb (he ▸ Beneath.refl t c)
  have hsplit : ∀ y, TransGen (t.link p c position).Hangs x y →
      TransGen t.Hangs x y ∨ t.Beneath x c ∧ t.Beneath p y := by
    intro y hy
    induction hy with
    | single h =>
      rcases (hangs_link hne hc horphan).mp h with h | ⟨rfl, rfl⟩
      · exact Or.inl (TransGen.single h)
      · exact Or.inr ⟨Beneath.refl t _, Beneath.refl t _⟩
    | tail _ h ih =>
      rcases (hangs_link hne hc horphan).mp h with h | ⟨rfl, rfl⟩
      · rcases ih with ih | ⟨hxc, hpb⟩
        · exact Or.inl (ih.tail h)
        · exact Or.inr ⟨hxc, hpb.trans (Beneath.of_hangs h)⟩
      · rcases ih with ih | ⟨hxc, -⟩
        · exact Or.inr ⟨ih.to_reflTransGen, Beneath.refl t _⟩
        · exact Or.inr ⟨hxc, Beneath.refl t _⟩
  intro hx
  rcases hsplit x hx with hx | ⟨hxc, hpx⟩
  · exact ht.acyclic x hx
  · exact hb (hpx.trans hxc)

theorem Linked.link (ht : t.Linked) (hp : t.get? p = some np) (hc : t.get? c = some nc)
    (horphan : nc.parent = none) (hposition : ∀ i, position = some i → i ≤ np.children.length)
    (hb : ¬ t.Beneath p c) : (t.link p c position).Linked := by
  have hne : c ≠ p := fun he => hb (he ▸ Beneath.refl t c)
  have hnew : c ∉ np.children := by
    intro hmem
    obtain ⟨m, hm, hmp⟩ := ht.hangs_of_lists p c ⟨np, hp, hmem⟩
    rw [hc] at hm
    cases hm
    rw [horphan] at hmp
    exact absurd hmp (by simp)
  constructor
  case sound => exact (ht.sound.modify c _).modify p _
  case root =>
    obtain ⟨n, hn⟩ := ht.root
    rw [root_link, get?_link t hne]
    split
    · rw [hp]; exact ⟨_, rfl⟩
    · split
      · rw [hc]; exact ⟨_, rfl⟩
      · exact ⟨n, hn⟩
  case hangs_of_lists =>
    intro q x h
    rcases (lists_link hne hp hposition).mp h with h | h
    · exact (hangs_link hne hc horphan).mpr (Or.inl (ht.hangs_of_lists q x h))
    · exact (hangs_link hne hc horphan).mpr (Or.inr h)
  case nodup =>
    intro k n hn
    rw [get?_link t hne] at hn
    split at hn
    · rw [hp] at hn
      cases hn
      exact (place_perm c hposition).nodup_iff.mpr
        (List.nodup_cons.mpr ⟨hnew, ht.nodup p np hp⟩)
    · split at hn
      · rw [hc] at hn
        cases hn
        exact ht.nodup c nc hc
      · exact ht.nodup k n hn
  case lists_of_hangs =>
    intro x q h
    rcases (hangs_link hne hc horphan).mp h with h | h
    · rcases ht.lists_of_hangs x q h with hl | ⟨hx, hf⟩
      · exact Or.inl ((lists_link hne hp hposition).mpr (Or.inl hl))
      · exact Or.inr ⟨hx, (hf.modify c _).modify p _⟩
    · exact Or.inl ((lists_link hne hp hposition).mpr (Or.inr h))
  case acyclic => exact fun x => not_transGen_link ht hc horphan hb

end Link

/-! ## A node unlinked -/

theorem hangs_unlink (ht : t.Linked) : (t.unlink id).Hangs x p ↔ t.Hangs x p ∧ x ≠ id := by
  rw [hangs_of_map (get?_unlink ht id)]
  by_cases hx : x = id <;> simp [hx, Hangs]

theorem lists_unlink (ht : t.Linked) : (t.unlink id).Lists p x ↔ t.Lists p x ∧ x ≠ id := by
  rw [lists_of_map (get?_unlink ht id)]
  by_cases hx : x = id <;> simp [hx, Lists]

theorem sound_unlink (ht : t.arena.Sound) (id : Handle) : (t.unlink id).arena.Sound := by
  unfold unlink
  split
  · exact (ht.modify _ _).modify _ _
  · exact ht

theorem freed_unlink (hf : t.arena.Freed x) (id : Handle) : (t.unlink id).arena.Freed x := by
  unfold unlink
  split
  · exact (hf.modify _ _).modify _ _
  · exact hf

theorem Linked.unlink (ht : t.Linked) (id : Handle) : (t.unlink id).Linked := by
  refine ht.shrink (sound_unlink ht.sound id) (root_unlink t id) ?_ ?_
    (fun x p h => ((hangs_unlink ht).mp h).1) ?_ ?_
  · obtain ⟨n, hn⟩ := ht.root
    rw [get?_unlink ht, hn]
    exact ⟨_, rfl⟩
  · intro k n' hn'
    rw [get?_unlink ht] at hn'
    obtain ⟨n, hn, rfl⟩ := Option.map_eq_some_iff.mp hn'
    exact ⟨n, hn, List.filter_sublist⟩
  · intro p x h
    obtain ⟨hl, hx⟩ := (lists_unlink ht).mp h
    exact (hangs_unlink ht).mpr ⟨ht.hangs_of_lists p x hl, hx⟩
  · intro x p h
    obtain ⟨hh, hx⟩ := (hangs_unlink ht).mp h
    rcases ht.lists_of_hangs x p hh with hl | ⟨hr, hf⟩
    · exact Or.inl ((lists_unlink ht).mpr ⟨hl, hx⟩)
    · exact Or.inr ⟨hr, freed_unlink hf id⟩

/-! ## A node pruned -/

/-- Pruning isolates what is beneath a node and takes the node away from everybody's children. -/
theorem get?_prune (ht : t.Linked) (hid : t.get? id = some n) (k : Handle) :
    (t.prune id).get? k = (t.get? k).map fun n =>
      if k ∈ (t.below id).map Prod.fst then { n with parent := none, children := [] }
      else { n with children := n.children.filter (· ≠ id) } := by
  unfold prune
  rw [get?_isolate, get?_unlink ht, Option.map_map]
  congr 1
  funext m
  by_cases hk : k ∈ (t.below id).map Prod.fst
  · simp only [Function.comp_apply, if_pos hk]
  · have hki : k ≠ id := by
      rintro rfl
      exact hk ((ht.mem_below_iff hid).mpr (Beneath.refl t k))
    simp only [Function.comp_apply, if_neg hk, if_neg hki]

theorem hangs_prune (ht : t.Linked) (hid : t.get? id = some n) :
    (t.prune id).Hangs x p ↔ t.Hangs x p ∧ ¬ t.Beneath x id := by
  rw [hangs_of_map (get?_prune ht hid), ← ht.mem_below_iff hid]
  by_cases hx : x ∈ (t.below id).map Prod.fst <;> simp only [hx, Hangs] <;> simp

theorem lists_prune (ht : t.Linked) (hid : t.get? id = some n) :
    (t.prune id).Lists p x ↔ t.Lists p x ∧ ¬ t.Beneath p id ∧ x ≠ id := by
  rw [lists_of_map (get?_prune ht hid), ← ht.mem_below_iff hid]
  unfold Lists
  cases t.get? p with
  | none => simp
  | some m => by_cases hp : p ∈ (t.below id).map Prod.fst <;> simp only [hp] <;> simp

theorem sound_isolate (ht : t.arena.Sound) (ids : List Handle) : (t.isolate ids).arena.Sound := by
  unfold isolate
  induction ids generalizing t with
  | nil => exact ht
  | cons id ids ih => exact ih (ht.modify id _)

theorem freed_isolate (hf : t.arena.Freed x) (ids : List Handle) :
    (t.isolate ids).arena.Freed x := by
  unfold isolate
  induction ids generalizing t with
  | nil => exact hf
  | cons id ids ih => exact ih (hf.modify id _)

@[simp] theorem root_prune (t : Tree) (id : Handle) : (t.prune id).root = t.root := by
  unfold prune
  rw [root_isolate, root_unlink]

theorem Linked.prune (ht : t.Linked) (hid : t.get? id = some n) : (t.prune id).Linked := by
  refine ht.shrink (sound_isolate (sound_unlink ht.sound id) _) (root_prune t id) ?_ ?_
    (fun x p h => ((hangs_prune ht hid).mp h).1) ?_ ?_
  · obtain ⟨m, hm⟩ := ht.root
    rw [get?_prune ht hid, hm]
    exact ⟨_, rfl⟩
  · intro k n' hn'
    rw [get?_prune ht hid] at hn'
    obtain ⟨m, hm, rfl⟩ := Option.map_eq_some_iff.mp hn'
    refine ⟨m, hm, ?_⟩
    split
    · exact List.nil_sublist _
    · exact List.filter_sublist
  · intro p x h
    obtain ⟨hl, hp, hx⟩ := (lists_prune ht hid).mp h
    have hh := ht.hangs_of_lists p x hl
    exact (hangs_prune ht hid).mpr ⟨hh, fun hb => hp (hb.parent hx hh)⟩
  · intro x p h
    obtain ⟨hh, hx⟩ := (hangs_prune ht hid).mp h
    rcases ht.lists_of_hangs x p hh with hl | ⟨hr, hf⟩
    · refine Or.inl ((lists_prune ht hid).mpr ⟨hl, fun hb => hx ?_, ?_⟩)
      · exact (Beneath.of_hangs hh).trans hb
      · rintro rfl
        exact hx (Beneath.refl t x)
    · exact Or.inr ⟨hr, freed_isolate (freed_unlink hf id) _⟩

/-! ## Children let go -/

theorem get?_foldl_orphan (t : Tree) (old : List Handle) (k : Handle) :
    (old.foldl (fun t c => t.update c fun n => { n with parent := none }) t).get? k =
      (t.get? k).map fun n => { n with parent := if k ∈ old then none else n.parent } := by
  induction old generalizing t with
  | nil => simp
  | cons c old ih =>
    rw [List.foldl_cons, ih, get?_change, Option.map_map]
    congr 1
    funext n
    by_cases hkc : k = c <;> by_cases hk : k ∈ old <;> simp [hkc, hk]

theorem get?_release (t : Tree) (id : Handle) (old : List Handle) (k : Handle) :
    (t.release id old).get? k = (t.get? k).map fun n =>
      { n with
        parent := if k ∈ old then none else n.parent
        children := if k = id then [] else n.children } := by
  unfold release
  rw [get?_foldl_orphan, get?_change, Option.map_map]
  congr 1
  funext n
  by_cases hk : k = id <;> simp [hk]

theorem hangs_release (ht : t.Linked) (hid : t.get? id = some n) :
    (t.release id n.children).Hangs x p ↔ t.Hangs x p ∧ p ≠ id := by
  have hiff : t.Hangs x id ↔ x ∈ n.children := by
    constructor
    · intro h
      obtain ⟨m, hm, hx⟩ := ht.lists_of_hangs_of_live h hid
      rw [hid] at hm
      cases hm
      exact hx
    · exact fun hx => ht.hangs_of_lists id x ⟨n, hid, hx⟩
  rw [hangs_of_map (get?_release t id n.children)]
  by_cases hx : x ∈ n.children
  · have hh := hiff.mpr hx
    simp only [if_pos hx]
    constructor
    · rintro ⟨m, -, hm⟩
      exact absurd hm (by simp)
    · rintro ⟨hp, hne⟩
      exact absurd (hp.unique hh) hne
  · simp only [if_neg hx]
    constructor
    · intro hp
      refine ⟨hp, ?_⟩
      rintro rfl
      exact hx (hiff.mp hp)
    · exact fun hp => hp.1

theorem lists_release (t : Tree) (id : Handle) (old : List Handle) :
    (t.release id old).Lists p x ↔ t.Lists p x ∧ p ≠ id := by
  rw [lists_of_map (get?_release t id old)]
  by_cases hp : p = id <;> simp [hp, Lists]

theorem release_induction {P : Tree → Prop} (hP : ∀ t k f, P t → P (t.update k f)) (ht : P t)
    (id : Handle) (old : List Handle) : P (t.release id old) := by
  unfold release
  generalize hs : t.update id _ = s
  have hPs : P s := hs ▸ hP t id _ ht
  clear hs
  induction old generalizing s with
  | nil => exact hPs
  | cons c old ih => exact ih _ (hP s c _ hPs)

@[simp] theorem root_release (t : Tree) (id : Handle) (old : List Handle) :
    (t.release id old).root = t.root :=
  release_induction (P := fun s => s.root = t.root) (fun _ _ _ h => h) rfl id old

theorem Linked.release (ht : t.Linked) (hid : t.get? id = some n) :
    (t.release id n.children).Linked := by
  have hsound : (t.release id n.children).arena.Sound :=
    release_induction (P := fun s => s.arena.Sound) (fun _ k f h => h.modify k f) ht.sound id _
  refine ht.shrink hsound (root_release t id _) ?_ ?_
    (fun x p h => ((hangs_release ht hid).mp h).1) ?_ ?_
  · obtain ⟨m, hm⟩ := ht.root
    rw [get?_release, hm]
    exact ⟨_, rfl⟩
  · intro k n' hn'
    rw [get?_release] at hn'
    obtain ⟨m, hm, rfl⟩ := Option.map_eq_some_iff.mp hn'
    refine ⟨m, hm, ?_⟩
    by_cases hk : k = id <;> simp [hk]
  · intro p x h
    obtain ⟨hl, hp⟩ := (lists_release t id _).mp h
    exact (hangs_release ht hid).mpr ⟨ht.hangs_of_lists p x hl, hp⟩
  · intro x p h
    obtain ⟨hh, hp⟩ := (hangs_release ht hid).mp h
    rcases ht.lists_of_hangs x p hh with hl | ⟨hr, hf⟩
    · exact Or.inl ((lists_release t id _).mpr ⟨hl, hp⟩)
    · exact Or.inr ⟨hr, release_induction (P := fun s => s.arena.Freed p)
        (fun _ k f h => h.modify k f) hf id _⟩

/-! ## A tree compacted -/

theorem get?_compact (t : Tree) (k : Handle) :
    t.compact.get? k = if k ∈ t.reached then t.get? k else none := by
  unfold compact get?
  rw [Arena.get?_retain]
  simp only [List.contains_iff_mem]

theorem Linked.mem_reached_iff (ht : t.Linked) : x ∈ t.reached ↔ t.Beneath x t.root := by
  obtain ⟨n, hn⟩ := ht.root
  exact ht.mem_below_iff hn

theorem hangs_compact (ht : t.Linked) :
    t.compact.Hangs x p ↔ t.Hangs x p ∧ t.Beneath x t.root := by
  rw [← ht.mem_reached_iff]
  unfold Hangs
  rw [get?_compact]
  by_cases hx : x ∈ t.reached <;> simp [hx]

theorem lists_compact (ht : t.Linked) :
    t.compact.Lists p x ↔ t.Lists p x ∧ t.Beneath p t.root := by
  rw [← ht.mem_reached_iff]
  unfold Lists
  rw [get?_compact]
  by_cases hp : p ∈ t.reached <;> simp [hp]

theorem freed_compact (ht : t.Linked) (hx : t.get? x = some n) (hb : ¬ t.Beneath x t.root) :
    t.compact.arena.Freed x := by
  refine Arena.freed_retain ht.sound hx ?_
  rw [← ht.mem_reached_iff] at hb
  simpa using hb

theorem Linked.compact (ht : t.Linked) : t.compact.Linked := by
  refine ht.shrink (ht.sound.retain _) rfl ?_ ?_ (fun x p h => ((hangs_compact ht).mp h).1) ?_ ?_
  · obtain ⟨n, hn⟩ := ht.root
    refine ⟨n, ?_⟩
    rw [get?_compact, if_pos (ht.mem_reached_iff.mpr (Beneath.refl t _)), hn]
  · intro k n' hn'
    rw [get?_compact] at hn'
    split at hn'
    · exact ⟨n', hn', List.Sublist.refl _⟩
    · exact absurd hn' (by simp)
  · intro p x h
    obtain ⟨hl, hp⟩ := (lists_compact ht).mp h
    have hh := ht.hangs_of_lists p x hl
    exact (hangs_compact ht).mpr ⟨hh, (Beneath.of_hangs hh).trans hp⟩
  · intro x p h
    obtain ⟨hh, hx⟩ := (hangs_compact ht).mp h
    rcases ht.lists_of_hangs x p hh with hl | ⟨hr, hf⟩
    · by_cases he : x = t.root
      · -- the root keeps a parent that is freed, because nothing above the root is reached
        obtain ⟨m, hm⟩ := hl.live
        subst he
        exact Or.inr ⟨rfl, freed_compact ht hm (ht.not_beneath_of_hangs hh)⟩
      · exact Or.inl ((lists_compact ht).mpr ⟨hl, hx.parent he hh⟩)
    · exact Or.inr ⟨hr, hf.retain _⟩

/-! ## Every step -/

/-- A step keeps a linked tree linked. -/
theorem Step.linked (h : Step t t') (ht : t.Linked) : t'.Linked := by
  cases h with
  | insert node hparent hchildren _ => exact ht.insert hparent hchildren
  | change id hf => exact ht.change id hf
  | link p c position hp hc horphan hposition hb => exact ht.link hp hc horphan hposition hb
  | unlink id => exact ht.unlink id
  | prune id hid => exact ht.prune hid
  | release id hid => exact ht.release hid
  | compact => exact ht.compact

theorem Step.root (h : Step t t') : t'.root = t.root := by
  cases h with
  | insert | change | link | compact => rfl
  | unlink id => exact root_unlink t id
  | prune id => exact root_prune t id
  | release id => exact root_release t id _

/-- No step brings a freed handle back. -/
theorem Step.freed (h : Step t t') (ht : t.arena.Sound) (hf : t.arena.Freed x) :
    t'.arena.Freed x := by
  cases h with
  | insert node => exact hf.insert ht node
  | change id => exact hf.modify id _
  | link p c position => exact (hf.modify c _).modify p _
  | unlink id => exact freed_unlink hf id
  | prune id => exact freed_isolate (freed_unlink hf id) _
  | release id =>
    exact release_induction (P := fun s => s.arena.Freed x) (fun _ k f h => h.modify k f) hf id _
  | compact => exact hf.retain _

/-- Every node of a tree keeps the vendor that its name carries. -/
def Labelled (t : Tree) : Prop :=
  ∀ k n, t.get? k = some n → n.Labelled

theorem Labelled.of_map (ht : t.Labelled) {g : Handle → Node → Node}
    (h : ∀ k, t'.get? k = (t.get? k).map (g k)) (hg : ∀ k n, n.Labelled → (g k n).Labelled) :
    t'.Labelled := by
  intro k m hm
  rw [h] at hm
  obtain ⟨n, hn, rfl⟩ := Option.map_eq_some_iff.mp hm
  exact hg k n (ht k n hn)

theorem Labelled.update (ht : t.Labelled) (id : Handle) {f : Node → Node}
    (hf : ∀ n, n.Labelled → (f n).Labelled) : (t.update id f).Labelled := by
  refine ht.of_map (get?_change t id f) fun k n hn => ?_
  split
  · exact hf n hn
  · exact hn

/-- A step keeps the vendors right. -/
theorem Step.labelled (h : Step t t') (ht : t.Linked) (hl : t.Labelled) : t'.Labelled := by
  cases h with
  | insert node _ _ hlabel =>
    intro k n hn
    rw [get?_insert ht.sound] at hn
    split at hn
    · cases hn
      exact hlabel
    · exact hl k n hn
  | change id hf => exact hl.update id hf.labelled
  | link p c position =>
    have hc := hl.update c (f := fun n => { n with parent := some p }) fun _ hn => hn
    exact hc.update p fun _ hn => hn
  | unlink id => exact hl.of_map (get?_unlink ht id) fun _ _ hn => hn
  | prune id hid =>
    refine hl.of_map (get?_prune ht hid) fun k n hn => ?_
    split <;> exact hn
  | release id hid => exact hl.of_map (get?_release t id _) fun _ _ hn => hn
  | compact =>
    intro k n hn
    rw [get?_compact] at hn
    split at hn
    · exact hl k n hn
    · exact absurd hn (by simp)

/-- The root of a tree is a document. -/
def Rooted (t : Tree) : Prop :=
  ∃ n, t.get? t.root = some n ∧ n.kind = .root

/-- No step changes the kind of a node. -/
theorem Step.kind (h : Step t t') (ht : t.Linked) {n' : Node} (hn : t.get? x = some n)
    (hn' : t'.get? x = some n') : n'.kind = n.kind := by
  have hmap : ∀ {g : Handle → Node → Node}, (∀ k, t'.get? k = (t.get? k).map (g k)) →
      (∀ k m, (g k m).kind = m.kind) → n'.kind = n.kind := by
    intro g hg hkind
    rw [hg, hn] at hn'
    cases hn'
    exact hkind x n
  cases h with
  | insert node =>
    have hne : x ≠ t.next := by
      rintro rfl
      rw [get?_next ht.sound] at hn
      exact absurd hn (by simp)
    rw [get?_insert ht.sound, if_neg hne, hn] at hn'
    cases hn'
    rfl
  | change id hf =>
    refine hmap (get?_change t id _) fun k m => ?_
    split
    · exact hf.kind m
    · rfl
  | link p c position _ _ _ _ hb =>
    have hne : c ≠ p := fun he => hb (he ▸ Beneath.refl t c)
    refine hmap (g := fun k m => if k = p then { m with children := place c position m.children }
      else if k = c then { m with parent := some p } else m) (fun k => ?_) fun k m => ?_
    · rw [get?_link t hne]
      by_cases hkp : k = p
      · simp [hkp]
      · by_cases hkc : k = c <;> simp [hkp, hkc, hne]
    · split
      · rfl
      · split <;> rfl
  | unlink id => exact hmap (get?_unlink ht id) fun _ _ => rfl
  | prune id hid =>
    refine hmap (get?_prune ht hid) fun k m => ?_
    split <;> rfl
  | release id => exact hmap (get?_release t id _) fun _ _ => rfl
  | compact =>
    rw [get?_compact] at hn'
    split at hn'
    · rw [hn] at hn'
      cases hn'
      rfl
    · exact absurd hn' (by simp)

/-- The root stays a document. -/
theorem Step.rooted (h : Step t t') (ht : t.Linked) (hr : t.Rooted) : t'.Rooted := by
  obtain ⟨n, hn, hkind⟩ := hr
  obtain ⟨n', hn'⟩ := (h.linked ht).root
  rw [h.root] at hn'
  exact ⟨n', by rw [h.root, hn'], (h.kind ht hn hn').trans hkind⟩

/-- Steps, one after the other. -/
def Steps : Tree → Tree → Prop :=
  ReflTransGen Step

theorem Steps.linked (h : Steps t t') (ht : t.Linked) : t'.Linked := by
  induction h with
  | refl => exact ht
  | tail _ h ih => exact h.linked ih

theorem Steps.root (h : Steps t t') : t'.root = t.root := by
  induction h with
  | refl => rfl
  | tail _ h ih => rw [h.root, ih]

theorem Steps.freed (h : Steps t t') (ht : t.Linked) (hf : t.arena.Freed x) :
    t'.arena.Freed x := by
  induction h with
  | refl => exact hf
  | tail hs h ih => exact h.freed (Steps.linked hs ht).sound ih

theorem Steps.rooted (h : Steps t t') (ht : t.Linked) (hr : t.Rooted) : t'.Rooted := by
  induction h with
  | refl => exact hr
  | tail hs h ih => exact h.rooted (Steps.linked hs ht) ih

theorem Steps.labelled (h : Steps t t') (ht : t.Linked) (hl : t.Labelled) : t'.Labelled := by
  induction h with
  | refl => exact hl
  | tail hs h ih => exact h.labelled (Steps.linked hs ht) ih

end Tree

end StyleTree
