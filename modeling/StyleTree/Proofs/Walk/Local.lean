import StyleTree.Proofs.Reachable

/-!
# Local handlers

A handler is local if all it does to the tree is done around the node it was called for: it inserts
texts or copies of the node beside it, removes it, and sets attributes and data.  It may do so any
number of times, in any order and whatever the outcomes are, and it may decide freely what to do.

What a walk must know of such a handler does not mention edits any more.

* `Around v t t'`: the nodes of `t` are kept in `t'`, and none has got a child, except for the
  parent of `v`.
* `Handler.Local.keeps`: a local handler works around its node.
-/

namespace StyleTree

open Relation

variable [Data]

namespace Tree

variable {t t' t'' u : Tree} {v p c q x y : Handle} {n : Node}

/-! ## Changes around a node -/

/-- The old nodes are kept, the tree is linked, and no old node has got a child, except for the
parent of `v`. -/
structure Around (v : Handle) (t t' : Tree) : Prop where
  kept : Kept t t'
  linked : t'.Linked
  lists : ∀ q x, (∃ n, t.get? q = some n) → t'.Lists q x → t.Lists q x ∨ t.Hangs v q

theorem Around.refl (ht : t.Linked) (v : Handle) : Around v t t :=
  ⟨Kept.refl t, ht, fun _ _ _ h => Or.inl h⟩

theorem Around.trans (hv : ∃ n, t.get? v = some n) (h : Around v t t') (h' : Around v t' t'') :
    Around v t t'' := by
  refine ⟨h.kept.trans h'.kept, h'.linked, fun q x hq hl => ?_⟩
  rcases h'.lists q x (h.kept.live hq) hl with hl | hh
  · exact h.lists q x hq hl
  · exact Or.inr (h.kept.hangs hv hh)

/-- Steps that leave every old node as it is. -/
theorem Around.of_frame (ht : t.Linked) (hs : Steps t u)
    (hframe : ∀ k n, t.get? k = some n → u.get? k = some n) (v : Handle) : Around v t u where
  kept := Kept.of_frame ht hs hframe
  linked := hs.linked ht
  lists := by
    rintro q x ⟨n, hn⟩ ⟨m, hm, hx⟩
    rw [hframe q n hn] at hm
    cases hm
    exact Or.inl ⟨n, hn, hx⟩

/-- A new orphan placed beside `v`, after steps that leave every old node as it is. -/
theorem Around.of_placed (ht : t.Linked) (hs : Steps t u)
    (hframe : ∀ k n, t.get? k = some n → u.get? k = some n) (hc : t.get? c = none)
    (horphan : ∀ p, ¬ u.Hangs c p) (hp : t.Hangs v p) {index : Option Nat} {after : Bool}
    (h : Edit.Placed u p c index after t') : Around v t t' := by
  have hsteps := h.steps (hs.linked ht)
  obtain ⟨hup, huc, hb, hn⟩ := h
  have hne : c ≠ p := by
    rintro rfl
    exact hb (Beneath.refl u c)
  have hold : ∀ k n, t.get? k = some n → k ≠ c := by
    rintro k n hk rfl
    rw [hc] at hk
    exact absurd hk (by simp)
  rw [unlink_of_orphan horphan] at hsteps hn ⊢
  refine ⟨⟨hsteps.root.trans hs.root, fun x m hm => ?_,
    fun x hf => hsteps.freed (hs.linked ht) (hs.freed ht hf)⟩, hsteps.linked (hs.linked ht), ?_⟩
  · rw [get?_link u hne]
    by_cases hxp : x = p
    · rw [if_pos hxp, ← hxp, hframe x m hm]
      exact ⟨_, rfl, Or.inl rfl⟩
    · rw [if_neg hxp, if_neg (hold x m hm), hframe x m hm]
      exact ⟨m, rfl, Or.inl rfl⟩
  · rintro q x ⟨m, hm⟩ ⟨m', hm', hx⟩
    by_cases hqp : q = p
    · exact Or.inr (hqp ▸ hp)
    · rw [get?_link u hne, if_neg hqp, if_neg (hold q m hm), hframe q m hm] at hm'
      cases hm'
      exact Or.inl ⟨m, hm, hx⟩

theorem Around.prune (ht : t.Linked) (hv : t.get? v = some n) : Around v t (t.prune v) := by
  have hs : Steps t (t.prune v) := ReflTransGen.single (Step.prune t v hv)
  refine ⟨⟨hs.root, fun x m hm => ?_, fun _ hf => hs.freed ht hf⟩, hs.linked ht, ?_⟩
  · rw [get?_prune ht hv, hm, Option.map_some]
    split
    · exact ⟨_, rfl, Or.inr rfl⟩
    · exact ⟨_, rfl, Or.inl rfl⟩
  · rintro q x - ⟨m, hm, hx⟩
    rw [get?_prune ht hv] at hm
    obtain ⟨m', hm', rfl⟩ := Option.map_eq_some_iff.mp hm
    refine Or.inl ⟨m', hm', ?_⟩
    split at hx
    · exact absurd hx (by simp)
    · exact (List.mem_filter.mp hx).1

end Tree

/-! ## Local edits -/

namespace Edit

open StyleTree.Action StyleTree.Tree

variable {α : Type} {t : Tree} {v : Handle} {n : Node} {x : Edit α}

/-- The edits that a local handler calls: copies and texts beside the node `v`, the removal of `v`,
and attributes and data of any node. -/
inductive Local (v : Handle) : {α : Type} → Edit α → Prop
  | insertBefore (text : String) : Local v (insertBefore v (.text text))
  | insertAfter (text : String) : Local v (insertAfter v (.text text))
  | copyBefore : Local v (copyBefore v)
  | copyAfter : Local v (copyAfter v)
  | copyPrefixed (affix : String) : Local v (copyPrefixed v affix)
  | remove : Local v (remove v)
  | setName (id : Handle) (name : String) : Local v (setName id name)
  | setValue (id : Handle) (value : String) : Local v (setValue id value)
  | setFamily (id : Handle) (family : String) : Local v (setFamily id family)
  | setDatum (id : Handle) (key : String) (datum : Datum) : Local v (setDatum id key datum)

theorem around_change (ht : t.Linked) (id : Handle) {f : Node → Node} (hf : Node.Retouch f)
    (v : Handle) : Around v t (t.update id f) := by
  have hs : Steps t (t.update id f) := ReflTransGen.single (Step.change t id hf)
  refine ⟨⟨hs.root, fun x m hm => ?_, fun _ hr => hs.freed ht hr⟩, hs.linked ht, fun q x _ hl => ?_⟩
  · rw [get?_change, hm, Option.map_some]
    split
    · exact ⟨_, rfl, Or.inl (hf.parent m)⟩
    · exact ⟨_, rfl, Or.inl rfl⟩
  · exact Or.inl ((lists_change hf.children).mp hl)

theorem yields_change_around (ht : t.Linked) (id : Handle) {f : Node → Node} (hf : Node.Retouch f)
    (v : Handle) :
    (change id f).Yields t (fun _ t' => Around v t t') (fun _ t' => Around v t t') := by
  refine yields_change.of_unchanged (Around.refl ht v) ?_
  rintro _ t' ⟨-, rfl⟩
  exact around_change ht id hf v

/-- A new branch placed beside `v`. -/
theorem around_grow_placed (ht : t.Linked) (hv : t.get? v = some n) (spec : Spec) {p : Handle}
    {i : Nat} (hsite : t.site? v = some (p, i) ∨ (t.grow spec).site? v = some (p, i)) {after : Bool}
    {t' : Tree} (h : Placed (t.grow spec) p t.next (some i) after t') : Around v t t' := by
  obtain ⟨b, hb⟩ := ht.grow spec
  have hp : t.Hangs v p := by
    rcases hsite with hsite | hsite
    · exact (site?_eq_some hsite).1
    · exact (Around.of_frame ht hb.steps hb.frame v).kept.hangs ⟨n, hv⟩ (site?_eq_some hsite).1
  refine Around.of_placed ht hb.steps hb.frame (get?_next ht.sound) ?_ hp h
  rintro q ⟨m, hm, hq⟩
  rw [← hb.id_eq, hb.shows.get?] at hm
  cases hm
  rw [hb.orphan] at hq
  exact absurd hq (by simp)

theorem yields_insertBeside_around (ht : t.Linked) (hv : t.get? v = some n) (after : Bool)
    (text : String) : (insertBeside after v (.text text)).Yields t
      (fun _ t' => Around v t t') (fun _ t' => Around v t t') := by
  refine (yields_insertBeside ht (.text text)).of_unchanged (Around.refl ht v) ?_
  rintro r t' (⟨-, -, rfl⟩ | ⟨p, i, c, u, hsite, -, hu, hplaced⟩)
  · exact Around.refl ht v
  · cases hu with
    | @text _ spec rest hparse => exact around_grow_placed ht hv spec (Or.inl hsite) hplaced

theorem yields_copyBeside_around (ht : t.Linked) (hv : t.get? v = some n) (after : Bool) :
    Action.Yields (do
      let clone ← copy v
      insertBeside after v (.node clone)) t
      (fun _ t' => Around v t t') (fun _ t' => Around v t t') := by
  refine (yields_copyBeside ht).of_unchanged (Around.refl ht v) ?_
  rintro r t' ⟨spec, -, ⟨-, rfl⟩ | ⟨p, i, hsite, -, hplaced⟩⟩
  · obtain ⟨b, hb⟩ := ht.grow spec
    exact Around.of_frame ht hb.steps hb.frame v
  · exact around_grow_placed ht hv spec (Or.inr hsite) hplaced

theorem yields_copyPrefixed_around (ht : t.Linked) (hv : t.get? v = some n) (affix : String) :
    (copyPrefixed v affix).Yields t (fun _ t' => Around v t t') (fun _ t' => Around v t t') := by
  refine (yields_copyPrefixed ht affix).of_unchanged (Around.refl ht v) ?_
  rintro r t' ⟨m, spec, u, -, -, hu, h⟩
  obtain ⟨b, hb⟩ := ht.grow spec
  have hstep : Step (t.grow spec) u :=
    hu ▸ Step.change _ t.next (Node.retouch_rename _)
  -- the copy is renamed before it is placed, and it is not an old node
  have hframe : ∀ k m, t.get? k = some m → u.get? k = some m := by
    intro k m hk
    have hne : k ≠ t.next := by
      rintro rfl
      rw [get?_next ht.sound] at hk
      exact absurd hk (by simp)
    rw [hu, get?_update, if_neg hne, hb.frame k m hk]
  have hs : Steps t u := hb.steps.tail hstep
  rcases h with ⟨-, rfl⟩ | ⟨p, i, hsite, -, hplaced⟩
  · exact Around.of_frame ht hs hframe v
  · have hp := (Around.of_frame ht hs hframe v).kept.hangs ⟨n, hv⟩ (site?_eq_some hsite).1
    refine Around.of_placed ht hs hframe (get?_next ht.sound) ?_ hp hplaced
    rintro q ⟨m, hm, hq⟩
    rw [hu, get?_update, if_pos rfl, ← hb.id_eq, hb.shows.get?] at hm
    cases hm
    exact absurd (hb.orphan.symm.trans hq) (by simp)

/-- A local edit works around its node, whatever its outcome. -/
theorem Local.around (hx : x.Local v) (ht : t.Linked) (hv : t.get? v = some n) :
    Around v t (x.run t).state := by
  rw [← yields_state_iff x t (Around v t)]
  cases hx with
  | insertBefore text => exact yields_insertBeside_around ht hv false text
  | insertAfter text => exact yields_insertBeside_around ht hv true text
  | copyBefore => exact yields_copyBeside_around ht hv false
  | copyAfter => exact yields_copyBeside_around ht hv true
  | copyPrefixed affix => exact yields_copyPrefixed_around ht hv affix
  | remove =>
    refine yields_remove.mono ?_ ?_
    · rintro _ t' ⟨-, -, rfl⟩
      exact Around.prune ht hv
    · rintro _ t' ⟨-, rfl⟩
      exact Around.refl ht v
  | setName id name => exact yields_change_around ht id (Node.retouch_rename _) v
  | setValue id value => exact yields_change_around ht id (Node.retouch_value value) v
  | setFamily id family => exact yields_change_around ht id (Node.retouch_family family) v
  | setDatum id key datum =>
    exact yields_change_around ht id (Node.retouch_data (·.insert key datum)) v

end Edit

/-! ## Local handlers -/

/-- What one local edit can make of a tree. -/
def Tree.LocalStep (v : Handle) (t t' : Tree) : Prop :=
  ∃ (α : Type) (x : Edit α), x.Local v ∧ t' = (x.run t).state

/-- A handler is local if, from every workspace, it does nothing to the tree but local edits around
the node it is called for, one after the other. -/
def Handler.Local {ι : Type} (handler : Handler ι) : Prop :=
  ∀ id w, ReflTransGen (Tree.LocalStep id) w.tree ((handler id).run w).state.tree

open StyleTree.Tree

theorem around_of_localSteps {v : Handle} {t t' : Tree} (ht : t.Linked)
    (hv : ∃ n, t.get? v = some n) (h : ReflTransGen (LocalStep v) t t') : Around v t t' := by
  induction h with
  | refl => exact Around.refl ht v
  | tail _ hstep ih =>
    obtain ⟨α, x, hx, rfl⟩ := hstep
    obtain ⟨n, hn⟩ := ih.kept.live hv
    exact ih.trans hv (hx.around ih.linked hn)

/-- Whatever a local handler is called after, it adds to what was done around its node. -/
theorem Handler.Local.keeps {ι : Type} {handler : Handler ι}
    (h : Handler.Local handler) {v : Handle} {t : Tree} (hv : ∃ n, t.get? v = some n) :
    (handler v).Keeps fun w => Around v t w.tree := by
  intro w hw
  rw [Action.yields_state_iff (handler v) w fun w' => Around v t w'.tree]
  exact hw.trans hv (around_of_localSteps hw.linked (hw.kept.live hv) (h v w))

end StyleTree
