import StyleTree.Proofs.Reachable
import StyleTree.Proofs.Tree.Cut

/-!
# What failed edits leave behind

A failed edit does not undo what it did before it failed, so it leaves the tree alone only if it
fails before its first change.  Some edits make new nodes first and place them afterwards.  That is
harmless: a new node is not above an old one, so nothing that is checked between the first change
and the last can go wrong.

* `Edit.Guarded`: the edits that fail before they change anything, and `Guarded.unchanged`, which
  says so.
* `yields_replaceContent_failed`: new content that cannot be read leaves the nodes of the texts
  before it, as orphans next to the old tree.
* `failed_edit_keeps`: both, for reachable trees.

Replacing a node is another matter.  The node is removed first, and the removal stays if the child
is then refused.

* `Refused`: the children that cannot be put below a parent.
* `replaceWith_keeps_iff`: a replacement that fails keeps the old nodes exactly if it had not come
  to the removal, that is, unless the node had a place and the child is refused there.
* `replaceWith_unreadable`: a declaration is lost to a text without a colon.
-/

namespace StyleTree

open StyleTree.Tree StyleTree.Action

namespace Tree

variable [Data] {t : Tree}

/-- Growing descriptions one after the other leaves the old nodes as they are, and every new node is
beneath a new orphan. -/
theorem Linked.grow_all (ht : t.Linked) (specs : List Spec) :
    Steps t (specs.foldl Tree.grow t) ∧
    (∀ k n, t.get? k = some n → (specs.foldl Tree.grow t).get? k = some n) ∧
    ∀ k n, (specs.foldl Tree.grow t).get? k = some n → t.get? k = none →
      ∃ r m, (specs.foldl Tree.grow t).Beneath k r ∧ (specs.foldl Tree.grow t).get? r = some m ∧
        m.parent = none ∧ t.get? r = none := by
  induction specs generalizing t with
  | nil =>
    refine ⟨Relation.ReflTransGen.refl, fun _ _ h => h, fun k n hk hnone => ?_⟩
    exact absurd (hk.symm.trans hnone) (by simp)
  | cons spec specs ih =>
    obtain ⟨b, hb⟩ := ht.grow spec
    have hgt := hb.steps.linked ht
    obtain ⟨hsteps, hframe, hnew⟩ := ih hgt
    rw [List.foldl_cons]
    refine ⟨hb.steps.trans hsteps, fun k n hk => hframe k n (hb.frame k n hk),
      fun k n hk hnone => ?_⟩
    cases hmid : (t.grow spec).get? k with
    | some m =>
      -- a node of this description is beneath its topmost node
      have hmem : k ∈ b.handles := (hb.origin k m hmid).resolve_left fun hlive => hlive hnone
      refine ⟨b.id, b.node, ?_, hframe _ _ hb.shows.get?, hb.orphan, hb.fresh _ b.id_mem_handles⟩
      rw [hgt.beneath_of_frame hsteps hframe hmid]
      exact (hb.shows.mem_handles_iff hgt).mp hmem
    | none =>
      obtain ⟨r, m, hkr, hr, horphan, hfresh⟩ := hnew k n hk hmid
      refine ⟨r, m, hkr, hr, horphan, ?_⟩
      cases hold : t.get? r with
      | none => rfl
      | some m' => exact absurd (hfresh.symm.trans (hb.frame r m' hold)) (by simp)

end Tree

namespace Edit

section General

variable [Data] {α : Type} {t : Tree} {id p : Handle} {n : Node} {child : Child}

/-! ## Edits that fail before they change anything -/

/-- The edits that change nothing unless they succeed. -/
inductive Guarded : {α : Type} → Edit α → Prop
  | plantText (parent : Handle) (text : String) : Guarded (plantText parent text)
  | copy (id : Handle) : Guarded (copy id)
  | setName (id : Handle) (name : String) : Guarded (setName id name)
  | setValue (id : Handle) (value : String) : Guarded (setValue id value)
  | setFamily (id : Handle) (family : String) : Guarded (setFamily id family)
  | setDatum (id : Handle) (key : String) (datum : Datum) : Guarded (setDatum id key datum)
  | removeDatum (id : Handle) (key : String) : Guarded (removeDatum id key)
  | add (parent : Handle) (child : Child) (index : Option Nat) (after : Bool) :
      Guarded (add parent child index after)
  | append (parent : Handle) (child : Child) : Guarded (append parent child)
  | prepend (parent : Handle) (child : Child) : Guarded (prepend parent child)
  | insertBefore (id : Handle) (child : Child) : Guarded (insertBefore id child)
  | insertAfter (id : Handle) (child : Child) : Guarded (insertAfter id child)
  | copyBefore (id : Handle) : Guarded (copyBefore id)
  | copyAfter (id : Handle) : Guarded (copyAfter id)
  | copyPrefixed (id : Handle) (affix : String) : Guarded (copyPrefixed id affix)
  | remove (id : Handle) : Guarded (remove id)
  | detach (id : Handle) : Guarded (detach id)

/-- A guarded edit of a linked tree that fails leaves the tree itself. -/
theorem Guarded.unchanged (ht : t.Linked) {x : Edit α} (hx : x.Guarded) :
    x.Yields t (fun _ _ => True) fun _ t' => t' = t := by
  have hdrop : ∀ {β : Type} {y : Edit β} {Q : β → Tree → Prop}, y.Yields t Q (fun _ t' => t' = t) →
      y.Yields t (fun _ _ => True) fun _ t' => t' = t :=
    fun h => h.mono (fun _ _ _ => trivial) fun _ _ he => he
  cases hx with
  | plantText parent text => exact hdrop yields_plantText
  | copy id => exact hdrop yields_copy
  | setName id name => exact hdrop yields_change
  | setValue id value => exact hdrop yields_change
  | setFamily id family => exact hdrop yields_change
  | setDatum id key datum => exact hdrop yields_change
  | removeDatum id key =>
    unfold Edit.removeDatum
    rw [yields_bind, yields_node]
    exact ⟨fun _ _ => trivial, fun _ => rfl⟩
  | add parent child index after => exact hdrop (yields_add ht child)
  | append parent child => exact hdrop (yields_add ht child)
  | prepend parent child => exact hdrop (yields_add ht child)
  | insertBefore id child => exact hdrop (yields_insertBeside ht child)
  | insertAfter id child => exact hdrop (yields_insertBeside ht child)
  | copyBefore id => exact hdrop (yields_copyBeside ht)
  | copyAfter id => exact hdrop (yields_copyBeside ht)
  | copyPrefixed id affix => exact hdrop (yields_copyPrefixed ht affix)
  | remove id => exact yields_remove.mono (fun _ _ _ => trivial) fun _ _ he => he.2
  | detach id => exact hdrop yields_detach

/-! ## New content that cannot be read -/

/-- A description is the first of those that a text is read into. -/
def Describes (text : String) (spec : Spec) : Prop :=
  ∃ rest, Css.parse text = .ok (spec :: rest)

/-- Texts are planted in turn up to the first that describes nothing. -/
theorem yields_mapM_plantText_grow (ht : t.Linked) (hid : t.get? id = some n)
    (texts : List String) : (texts.mapM (plantText id)).Yields t
      (fun _ t' => ∃ specs, List.Forall₂ Describes texts specs ∧ t' = specs.foldl Tree.grow t)
      (fun _ t' => ∃ done text rest specs, texts = done ++ text :: rest ∧
        (∀ spec, ¬ Describes text spec) ∧ List.Forall₂ Describes done specs ∧
        t' = specs.foldl Tree.grow t) := by
  induction texts generalizing t with
  | nil => exact ⟨[], List.Forall₂.nil, rfl⟩
  | cons text texts ih =>
    rw [List.mapM_cons, yields_bind]
    refine yields_plantText_unless.mono ?_ ?_
    · rintro c u ⟨spec, rest, hparse, rfl, rfl⟩
      obtain ⟨b, hb⟩ := ht.grow spec
      rw [yields_bind]
      refine (ih (hb.steps.linked ht) (hb.frame id n hid)).mono ?_ ?_
      · rintro cs u ⟨specs, hspecs, rfl⟩
        exact ⟨spec :: specs, .cons ⟨rest, hparse⟩ hspecs, rfl⟩
      · rintro e u ⟨done, text', rest', specs, rfl, hbad, hspecs, rfl⟩
        exact ⟨text :: done, text', rest', spec :: specs, rfl, hbad,
          .cons ⟨rest, hparse⟩ hspecs, rfl⟩
    · rintro e u ⟨rfl, hdead | hbad⟩
      · exact absurd (hid.symm.trans hdead) (by simp)
      · exact ⟨[], text, texts, [], rfl, fun spec ⟨rest, hparse⟩ => hbad spec rest hparse, .nil,
          rfl⟩

/-- New content fails only for want of the node or at a text that describes nothing, and then the
texts before that one have been planted. -/
theorem yields_replaceContent_failed (ht : t.Linked) (texts : List String) :
    (replaceContent id texts).Yields t (fun _ _ => True)
      (fun _ t' => t.get? id = none ∧ t' = t ∨ ∃ done text rest specs,
        texts = done ++ text :: rest ∧
        (∀ spec, ¬ Describes text spec) ∧ List.Forall₂ Describes done specs ∧
        t' = specs.foldl Tree.grow t) := by
  unfold replaceContent
  rw [yields_bind, yields_node]
  refine ⟨fun n hid => ?_, fun hdead => Or.inl ⟨hdead, rfl⟩⟩
  rw [yields_bind]
  refine (yields_mapM_plantText_grow ht hid texts).mono ?_ fun _ _ h => Or.inr h
  rintro cs u ⟨specs, -, rfl⟩
  -- the node is still there, and nothing is checked after that
  rw [yields_bind, yields_node]
  refine ⟨fun _ _ => trivial, fun hdead => ?_⟩
  exact absurd (((ht.grow_all specs).2.1 id n hid).symm.trans hdead) (by simp)

/-- Failed edits of reachable trees leave the tree as it was.  A guarded edit leaves the whole tree,
so that also new nodes will get the same handles.  New content leaves the root and every old node;
all that there is besides is made from texts before the one that could not be read, and is beneath
new orphans. -/
theorem failed_edit_keeps (h : t.Reachable) :
    (∀ {α : Type} {x : Edit α}, x.Guarded → ∀ e, (x.run t).result = .error e →
      (x.run t).state = t) ∧
    ∀ id texts e, ((replaceContent id texts).run t).result = .error e →
      let t' := ((replaceContent id texts).run t).state
      (∃ done specs, done <+: texts ∧ List.Forall₂ Describes done specs ∧
        t' = specs.foldl Tree.grow t) ∧
      t'.root = t.root ∧ (∀ k n, t.get? k = some n → t'.get? k = some n) ∧
      ∀ k n, t'.get? k = some n → t.get? k = none →
        ∃ r m, t'.Beneath k r ∧ t'.get? r = some m ∧ m.parent = none ∧ t.get? r = none := by
  have ht := h.linked
  refine ⟨fun hx e he => (hx.unchanged ht).of_error he, fun id texts e he => ?_⟩
  have hleft : ∃ done specs, done <+: texts ∧ List.Forall₂ Describes done specs ∧
      ((replaceContent id texts).run t).state = specs.foldl Tree.grow t := by
    rcases (yields_replaceContent_failed ht texts).of_error he with
      ⟨-, hsame⟩ | ⟨done, text, rest, specs, rfl, -, hspecs, hstate⟩
    · exact ⟨[], [], List.nil_prefix, .nil, hsame⟩
    · exact ⟨done, specs, List.prefix_append _ _, hspecs, hstate⟩
  refine ⟨hleft, ?_⟩
  obtain ⟨-, specs, -, -, hstate⟩ := hleft
  obtain ⟨hsteps, hframe, hnew⟩ := ht.grow_all specs
  rw [hstate]
  exact ⟨hsteps.root, hframe, hnew⟩

end General

/-- The tree of a rule with two declarations, `b` with the handle `3v1` and `c` with the handle
`4v1`. -/
def twoDeclarations : Tree :=
  Tree.ofSpecs [.rule "a" [.declaration "b" "1", .declaration "c" "2"]]

theorem reachable_twoDeclarations : twoDeclarations.Reachable := by
  have hparse : Css.parse "a \x7b b: 1; c: 2; \x7d" =
      .ok [.rule "a" [.declaration "b" "1", .declaration "c" "2"]] := rfl
  exact .parse hparse

/-- A child without a colon leaves the tree, and so does new content with such a text, apart from
the node of the text before it. -/
theorem failed_edit_keeps_two :
    let t := twoDeclarations
    let unread := Fault.parse (.missingColon "broken") ⟨1, 1⟩
    let content := (replaceContent ⟨2, 1⟩ ["x: 1;", "broken", "y: 2;"]).run t
    t.Reachable ∧
      ((append ⟨2, 1⟩ (.text "broken")).run t).result = .error unread ∧
      ((append ⟨2, 1⟩ (.text "broken")).run t).state = t ∧
      content.result = .error unread ∧ content.state.contains ⟨5, 1⟩ = true ∧
      ∀ k n, t.get? k = some n → content.state.get? k = some n := by
  intro t unread content
  have happend : ((append ⟨2, 1⟩ (.text "broken")).run t).result = .error unread := by
    decide +kernel
  have hcontent : content.result = .error unread := by decide +kernel
  obtain ⟨hguarded, hreplace⟩ := failed_edit_keeps reachable_twoDeclarations
  refine ⟨reachable_twoDeclarations, happend, hguarded (.append _ _) _ happend, hcontent,
    by decide +kernel, ?_⟩
  exact (hreplace _ _ _ hcontent).2.2.1

/-! ## Replacing a node -/

section Replacing

variable [Data] {t : Tree} {id p : Handle} {n : Node} {child : Child}

/-- A child cannot be put below a parent: it is no node, or the parent is beneath it, or its text
describes nothing. -/
def Refused (t : Tree) (p : Handle) : Child → Prop
  | .node c => t.get? c = none ∨ t.Beneath p c
  | .text text => ∀ spec, ¬ Describes text spec

/-- A child is placed below a node unless it is refused. -/
theorem yields_add_unless (ht : t.Linked) (hp : t.get? p = some n) (index : Option Nat)
    (after : Bool) : (add p child index after).Yields t (fun _ _ => ¬ Refused t p child)
      (fun _ t' => t' = t ∧ Refused t p child) := by
  cases child with
  | node c =>
    refine (yields_add_node ht).mono ?_ ?_
    · rintro _ t' ⟨-, hplaced⟩ hrefused
      obtain ⟨-, hc, hb, -⟩ := hplaced
      rcases hrefused with hdead | hbeneath
      · exact absurd (hc.symm.trans hdead) (by simp)
      · exact hb hbeneath
    · rintro e t' ⟨rfl, ⟨-, hdead | hdead⟩ | ⟨-, hb⟩⟩
      · exact absurd (hp.symm.trans hdead) (by simp)
      · exact ⟨rfl, Or.inl hdead⟩
      · exact ⟨rfl, Or.inr hb⟩
  | text text =>
    refine (yields_add_text_unless ht).mono ?_ ?_
    · rintro _ t' ⟨spec, rest, hparse, -⟩ hrefused
      exact hrefused spec ⟨rest, hparse⟩
    · rintro e t' ⟨rfl, hdead | hbad⟩
      · exact absurd (hp.symm.trans hdead) (by simp)
      · exact ⟨rfl, fun spec ⟨rest, hparse⟩ => hbad spec rest hparse⟩

/-- Removing a node that hangs from the parent does not matter to which children the parent
refuses. -/
theorem refused_prune (ht : t.Linked) (hid : t.Hangs id p) :
    Refused (t.prune id) p child ↔ Refused t p child := by
  obtain ⟨n, hn⟩ := hid.live
  cases child with
  | text text => rfl
  | node c =>
    have hlive : (t.prune id).get? c = none ↔ t.get? c = none := by
      rw [get?_prune ht hn, Option.map_eq_none_iff]
    have hbeneath : (t.prune id).Beneath p c ↔ t.Beneath p c :=
      beneath_prune ht hn (ht.not_beneath_of_hangs hid)
    exact or_congr hlive hbeneath

/-- A node is replaced unless there is none, or it has a place and the child is refused there. -/
theorem yields_replaceWith_unless (ht : t.Linked) (child : Child) : (replaceWith id child).Yields t
    (fun _ _ => ∀ p i, t.site? id = some (p, i) → ¬ Refused t p child)
    (fun _ t' => t.get? id = none ∧ t' = t ∨
      ∃ p i, t.site? id = some (p, i) ∧ Refused t p child ∧ t' = t.prune id) := by
  unfold replaceWith
  rw [yields_bind, yields_node]
  refine ⟨fun n hn => ?_, fun hdead => Or.inl ⟨hdead, rfl⟩⟩
  rw [yields_bind, yields_get]
  cases hsite : t.site? id with
  | none => exact fun p i h => absurd h (by simp)
  | some site =>
    obtain ⟨p, i⟩ := site
    obtain ⟨hhangs, np, hp, -⟩ := site?_eq_some hsite
    obtain ⟨np', hp'⟩ := live_prune ht hn ⟨np, hp⟩
    show Action.Yields (remove id >>= fun _ => some <$> add p child (some i) false) t _ _
    rw [yields_bind]
    refine yields_remove.mono ?_ fun _ _ h => Or.inl h
    rintro _ t' ⟨-, -, rfl⟩
    rw [yields_map]
    refine (yields_add_unless (ht.prune hn) hp' (some i) false).mono ?_ ?_
    · rintro c t' hplaced q j hq
      cases hq
      rwa [← refused_prune ht hhangs]
    · rintro e t' ⟨rfl, hrefused⟩
      exact Or.inr ⟨p, i, rfl, (refused_prune ht hhangs).mp hrefused, rfl⟩

/-- Removing a node that hangs from another changes it. -/
theorem get?_prune_self_ne (ht : t.Linked) (hid : t.Hangs id p) :
    (t.prune id).get? id ≠ t.get? id := by
  obtain ⟨n, hn, hp⟩ := hid
  rw [get?_prune_of_beneath ht hn (Beneath.refl t id), hn, Option.map_some]
  intro hsame
  have hparent := congrArg Node.parent (Option.some.inj hsame)
  exact absurd (hp.symm.trans hparent.symm) (by simp)

/-- A failed replacement keeps every old node exactly if the node to be replaced had no place, or
the child is not refused there, so that there is no failure at all.  What it leaves is the tree, or
the tree with the node removed. -/
theorem replaceWith_keeps_iff (h : t.Reachable) (id : Handle) (child : Child) :
    let o := (replaceWith id child).run t
    ((∀ e, o.result = .error e → ∀ k n, t.get? k = some n → o.state.get? k = some n) ↔
      ∀ p i, t.site? id = some (p, i) → ¬ Refused t p child) ∧
    ∀ e, o.result = .error e → o.state = t ∨ o.state = t.prune id := by
  intro o
  have ht := h.linked
  have hyields : Action.Yields (replaceWith id child) t _ _ := yields_replaceWith_unless ht child
  cases hresult : o.result with
  | ok r =>
    have hplaced := hyields.of_ok hresult
    exact ⟨⟨fun _ => hplaced, fun _ e he => absurd he (by simp)⟩, fun e he => absurd he (by simp)⟩
  | error e =>
    rcases hyields.of_error hresult with ⟨hdead, hstate⟩ | ⟨p, i, hsite, hrefused, hstate⟩
    · refine ⟨⟨fun _ p i hsite => ?_, fun _ _ _ k n hk => ?_⟩, fun _ _ => Or.inl hstate⟩
      · obtain ⟨n, hn⟩ := (site?_eq_some hsite).1.live
        exact absurd (hn.symm.trans hdead) (by simp)
      · rw [show o.state = t from hstate]
        exact hk
    · refine ⟨⟨fun hkeeps => ?_, fun hnone => absurd hrefused (hnone p i hsite)⟩,
        fun _ _ => Or.inr hstate⟩
      have hhangs := (site?_eq_some hsite).1
      obtain ⟨n, hn⟩ := hhangs.live
      have hsame := hkeeps e rfl id n hn
      rw [show o.state = t.prune id from hstate] at hsame
      exact absurd (hsame.trans hn.symm) (get?_prune_self_ne ht hhangs)

end Replacing

/-- A handle that was never given out has no place, and nothing is lost when it cannot be
replaced. -/
theorem replaceWith_keeps_two :
    let t := twoDeclarations
    let o := (replaceWith ⟨9, 1⟩ (.text "broken")).run t
    t.Reachable ∧ o.result = .error .invalidNode ∧
      ∀ k n, t.get? k = some n → o.state.get? k = some n := by
  intro t o
  have hresult : o.result = .error .invalidNode := rfl
  have hsite : t.site? ⟨9, 1⟩ = none := rfl
  have hkeeps := (replaceWith_keeps_iff reachable_twoDeclarations ⟨9, 1⟩ (.text "broken")).1
  refine ⟨reachable_twoDeclarations, hresult, hkeeps.mpr (fun p i h => ?_) _ hresult⟩
  exact absurd (hsite.symm.trans h) (by simp)

/-- A failed replacement does not keep every old node: the declaration `b` is gone, although the
text that was to replace it cannot be read. -/
theorem replaceWith_unreadable :
    let t := twoDeclarations
    let o := (replaceWith ⟨3, 1⟩ (.text "broken")).run t
    t.Reachable ∧ o.result = .error (.parse (.missingColon "broken") ⟨1, 1⟩) ∧
      (t.get? ⟨3, 1⟩).map Node.parent = some (some ⟨2, 1⟩) ∧
      (o.state.get? ⟨3, 1⟩).map Node.parent = some none ∧
      (t.get? ⟨2, 1⟩).map Node.children = some [⟨3, 1⟩, ⟨4, 1⟩] ∧
      (o.state.get? ⟨2, 1⟩).map Node.children = some [⟨4, 1⟩] := by
  intro t o
  refine ⟨reachable_twoDeclarations, ?_, ?_, ?_, ?_, ?_⟩ <;> decide +kernel

end Edit

end StyleTree
