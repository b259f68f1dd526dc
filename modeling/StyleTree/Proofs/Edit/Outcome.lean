import StyleTree.Edit
import StyleTree.Proofs.Action
import StyleTree.Proofs.Tree.Grow
import StyleTree.Proofs.Tree.Kept

/-!
# The outcomes of edits

What each edit does to a linked tree, success and failure apart.  An edit that fails has changed
nothing, with two exceptions that are stated where they occur: replacing a node removes it first,
and replacing the content of a node may have made some of the new nodes.

The outcome of placing a node is `Placed`: the node taken out of the place it has and linked to the
parent, which is not beneath it.  Every edit that places nodes is described by it.
-/

namespace StyleTree.Edit

open StyleTree.Tree StyleTree.Action

variable [Data] {σ : Type} {t u : Tree} {id p c x y : Handle} {n : Node} {index : Option Nat}
  {after : Bool}
  {text : String}

/-! ## Reading -/

theorem yields_node {Q : Node → Tree → Prop} {E : Fault → Tree → Prop} :
    (node id).Yields t Q E ↔
      (∀ n, t.get? id = some n → Q n t) ∧ (t.get? id = none → E .invalidNode t) := by
  unfold node
  rw [yields_bind, yields_get]
  cases t.get? id <;> simp

omit [Data] in
theorem yields_read {s : σ} {Q : List Spec → σ → Prop} {E : Fault → σ → Prop} :
    (read text : Action σ (List Spec)).Yields s Q E ↔
      match Css.parse text with
      | .ok specs => Q specs s
      | .error e => E e s := by
  unfold read
  rw [yields_bind, yields_ofExcept]
  cases Css.parse text <;> rfl

/-! ## New nodes -/

/-- A text is planted unless its parent is missing or it describes nothing. -/
theorem yields_plantText_unless : (plantText p text).Yields t
    (fun id t' => ∃ spec rest, Css.parse text = .ok (spec :: rest) ∧ id = t.next ∧ t' = t.grow spec)
    (fun _ t' =>
      t' = t ∧ (t.get? p = none ∨ ∀ spec rest, Css.parse text ≠ .ok (spec :: rest))) := by
  unfold plantText
  rw [yields_bind, yields_node]
  refine ⟨fun n _ => ?_, fun hp => ⟨rfl, Or.inl hp⟩⟩
  rw [yields_bind, yields_read]
  split
  · next specs hparse =>
    cases specs with
    | nil => exact ⟨rfl, Or.inr fun _ _ h => by simp [hparse] at h⟩
    | cons spec rest => exact ⟨spec, rest, hparse, rfl, rfl⟩
  · next e herror => exact ⟨rfl, Or.inr fun _ _ h => by simp [herror] at h⟩

theorem yields_plantText : (plantText p text).Yields t
    (fun id t' => ∃ spec rest, Css.parse text = .ok (spec :: rest) ∧ id = t.next ∧ t' = t.grow spec)
    (fun _ t' => t' = t) :=
  yields_plantText_unless.mono (fun _ _ h => h) fun _ _ h => h.1

/-- The description that a node is copied from: its text read back, or the node on its own if the
text is empty. -/
def Copies (t : Tree) (id : Handle) (spec : Spec) : Prop :=
  ∃ n text, t.get? id = some n ∧ t.text id = .ok text ∧
    (text = "" ∧ spec = n.bare ∨
      text ≠ "" ∧ ∃ specs, Css.parse text = .ok specs ∧ Css.single n.kind specs = .ok spec)

theorem Copies.live {spec : Spec} (h : Copies t id spec) : ∃ n, t.get? id = some n := by
  obtain ⟨n, -, hn, -⟩ := h
  exact ⟨n, hn⟩

/-- A node is copied from one description only. -/
theorem Copies.unique {spec spec' : Spec} (h : Copies t id spec) (h' : Copies t id spec') :
    spec = spec' := by
  obtain ⟨n, text, hn, htext, h⟩ := h
  obtain ⟨n', text', hn', htext', h'⟩ := h'
  obtain rfl : n = n' := Option.some.inj (hn.symm.trans hn')
  obtain rfl : text = text' := Except.ok.inj (htext.symm.trans htext')
  rcases h with ⟨hempty, rfl⟩ | ⟨hne, specs, hparse, hsingle⟩
  · rcases h' with ⟨-, rfl⟩ | ⟨hne, -⟩
    · rfl
    · exact absurd hempty hne
  · rcases h' with ⟨hempty, -⟩ | ⟨-, specs', hparse', hsingle'⟩
    · exact absurd hempty hne
    · obtain rfl : specs = specs' := Except.ok.inj (hparse.symm.trans hparse')
      exact Except.ok.inj (hsingle.symm.trans hsingle')

/-- Copying fails only if there is nothing to copy from. -/
theorem yields_copy_unless : (copy id).Yields t
    (fun c t' => ∃ spec, Copies t id spec ∧ c = t.next ∧ t' = t.grow spec)
    (fun _ t' => t' = t ∧ ∀ spec, ¬ Copies t id spec) := by
  unfold copy
  rw [yields_bind, yields_node]
  refine ⟨fun n hn => ?_, fun hdead => ⟨rfl, fun spec h => ?_⟩⟩
  · rw [yields_bind, yields_get, yields_bind, yields_ofExcept]
    split
    · next text htext =>
      split
      · next hempty => exact ⟨n.bare, ⟨n, text, hn, htext, Or.inl ⟨hempty, rfl⟩⟩, rfl, rfl⟩
      · next hne =>
        -- a text that is not empty is read back, or nothing is
        have hread : ∀ spec, Copies t id spec →
            ∃ specs, Css.parse text = .ok specs ∧ Css.single n.kind specs = .ok spec := by
          rintro spec ⟨n', text', hn', htext', h⟩
          obtain rfl : n = n' := Option.some.inj (hn.symm.trans hn')
          obtain rfl : text = text' := Except.ok.inj (htext.symm.trans htext')
          exact (h.resolve_left fun h => hne h.1).2
        unfold readOne
        rw [yields_bind, yields_bind, yields_read]
        split
        · next specs hparse =>
          rw [yields_ofExcept]
          split
          · next spec hsingle =>
            exact ⟨spec, ⟨n, text, hn, htext, Or.inr ⟨hne, specs, hparse, hsingle⟩⟩, rfl, rfl⟩
          · next e herror =>
            refine ⟨rfl, fun spec h => ?_⟩
            obtain ⟨specs', hparse', hsingle⟩ := hread spec h
            obtain rfl : specs = specs' := Except.ok.inj (hparse.symm.trans hparse')
            rw [herror] at hsingle
            exact absurd hsingle (by simp)
        · next e herror =>
          refine ⟨rfl, fun spec h => ?_⟩
          obtain ⟨specs, hparse, -⟩ := hread spec h
          rw [herror] at hparse
          exact absurd hparse (by simp)
    · next e herror =>
      refine ⟨rfl, fun spec h => ?_⟩
      obtain ⟨n', text, -, htext, -⟩ := h
      rw [herror] at htext
      exact absurd htext (by simp)
  · obtain ⟨n, hn⟩ := h.live
    rw [hdead] at hn
    exact absurd hn (by simp)

theorem yields_copy : (copy id).Yields t
    (fun c t' => ∃ spec, Copies t id spec ∧ c = t.next ∧ t' = t.grow spec) (fun _ t' => t' = t) :=
  yields_copy_unless.mono (fun _ _ h => h) fun _ _ h => h.1

/-! ## Placing a node -/

/-- The outcome of placing a node below a parent that is not beneath it. -/
inductive Placed (t : Tree) (p c : Handle) (index : Option Nat) (after : Bool) : Tree → Prop
  | mk {np nc n : Node} (hp : t.get? p = some np) (hc : t.get? c = some nc) (hb : ¬ t.Beneath p c)
      (hn : (t.unlink c).get? p = some n) :
      Placed t p c index after ((t.unlink c).link p c (placement n.children.length index after))

omit [Data] in
theorem placement_le {count i : Nat} (h : placement count index after = some i) : i ≤ count := by
  unfold placement at h
  split at h
  · exact absurd h (by simp)
  · split at h
    · split at h
      · exact absurd h (by simp)
      · cases h
        exact Nat.min_le_right _ _
    · cases h
      exact Nat.min_le_right _ _

/-- Unlinking makes no new way up. -/
theorem beneath_of_unlink (ht : t.Linked) (h : (t.unlink id).Beneath x y) : t.Beneath x y :=
  Relation.ReflTransGen.mono (fun _ _ hh => ((hangs_unlink ht).mp hh).1) x y h

theorem Placed.steps (ht : t.Linked) (h : Placed t p c index after u) : Steps t u := by
  obtain ⟨hp, hc, hb, hn⟩ := h
  have hc' := get?_unlink ht c c
  rw [hc, Option.map_some] at hc'
  refine (Relation.ReflTransGen.single (Step.unlink t c)).tail ?_
  exact Step.link _ p c _ hn hc' (if_pos rfl) (fun i hi => placement_le hi)
    fun hb' => hb (beneath_of_unlink ht hb')

/-- The last part of placing a node, from where the node is known. -/
theorem yields_place (ht : t.Linked) (hp : t.get? p = some n) {nc : Node}
    (hc : t.get? c = some nc) {Q : Handle → Tree → Prop} {E : Fault → Tree → Prop}
    (hQ : ∀ t', Placed t p c index after t' → Q c t')
    (hE : t.Beneath p c → E .circularParentage t) :
    Action.Yields (do
      let _ ← node c
      if (← Action.get).isAbove c p then Action.fail .circularParentage
      else
        Action.modify (·.unlink c)
        let position := placement (← node p).children.length index after
        Action.modify (·.link p c position)
        Action.report (.addedNode p c position)
        return c) t Q E := by
  rw [yields_bind, yields_node]
  refine ⟨fun _ _ => ?_, fun hnone => absurd hnone (by rw [hc]; simp)⟩
  rw [yields_bind, yields_get]
  by_cases hb : t.Beneath p c
  · rw [if_pos ((ht.isAbove_iff hc).mpr hb)]
    exact hE hb
  · rw [if_neg fun h => hb ((ht.isAbove_iff hc).mp h), yields_bind, yields_modify, yields_bind,
      yields_node]
    refine ⟨fun m hm => hQ _ ⟨hp, hc, hb, hm⟩, fun hnone => ?_⟩
    rw [get?_unlink ht, hp] at hnone
    exact absurd hnone (by simp)

/-- Placing a node of the tree fails for want of one of the two nodes, and otherwise against a
circle. -/
theorem yields_add_node_unless (ht : t.Linked) : (add p (.node c) index after).Yields t
    (fun c' t' => c' = c ∧ Placed t p c index after t')
    (fun e t' => t' = t ∧ (e = .invalidNode ∧ (t.get? p = none ∨ t.get? c = none) ∨
      e = .circularParentage ∧ (∃ np, t.get? p = some np) ∧ (∃ nc, t.get? c = some nc) ∧
        t.Beneath p c)) := by
  unfold add
  rw [yields_bind, yields_node]
  refine ⟨fun n hp => ?_, fun hp => ⟨rfl, Or.inl ⟨rfl, Or.inl hp⟩⟩⟩
  cases hc : t.get? c with
  | none =>
    show Action.Yields (node c >>= _) t _ _
    rw [yields_bind, yields_node]
    refine ⟨fun n hn => absurd hn (by rw [hc]; simp), fun _ => ⟨rfl, Or.inl ⟨rfl, Or.inr rfl⟩⟩⟩
  | some nc =>
    exact yields_place ht hp hc (fun t' h => ⟨rfl, h⟩)
      fun hb => ⟨rfl, Or.inr ⟨rfl, ⟨n, hp⟩, ⟨nc, rfl⟩, hb⟩⟩

theorem yields_add_node (ht : t.Linked) : (add p (.node c) index after).Yields t
    (fun c' t' => c' = c ∧ Placed t p c index after t')
    (fun e t' => t' = t ∧ (e = .invalidNode ∧ (t.get? p = none ∨ t.get? c = none) ∨
      e = .circularParentage ∧ t.Beneath p c)) :=
  (yields_add_node_unless ht).mono (fun _ _ h => h) fun _ _ h =>
    ⟨h.1, h.2.imp_right fun h => ⟨h.1, h.2.2.2⟩⟩

/-- Placing a text fails only if the parent is missing or the text does not describe a node. -/
theorem yields_add_text_unless (ht : t.Linked) : (add p (.text text) index after).Yields t
    (fun c t' => ∃ spec rest, Css.parse text = .ok (spec :: rest) ∧ c = t.next ∧
      Placed (t.grow spec) p c index after t')
    (fun _ t' =>
      t' = t ∧ (t.get? p = none ∨ ∀ spec rest, Css.parse text ≠ .ok (spec :: rest))) := by
  unfold add
  rw [yields_bind, yields_node]
  refine ⟨fun n hp => ?_, fun hp => ⟨rfl, Or.inl hp⟩⟩
  show Action.Yields (plantText p text >>= _) t _ _
  rw [yields_bind]
  refine yields_plantText_unless.mono ?_ fun _ _ h => h
  rintro c t' ⟨spec, rest, hparse, rfl, rfl⟩
  obtain ⟨b, hb⟩ := ht.grow spec
  have hgt : (t.grow spec).Linked := hb.steps.linked ht
  have hc : (t.grow spec).get? t.next = some b.node := hb.id_eq ▸ hb.shows.get?
  refine yields_place hgt (hb.frame p n hp) hc (fun t' h => ⟨spec, rest, hparse, rfl, h⟩)
    fun hbn => ?_
  -- the parent is an old node, and beneath the new one there are only new nodes
  rw [← hb.id_eq, ← hb.shows.mem_handles_iff hgt] at hbn
  have hdead := hb.fresh p hbn
  rw [hp] at hdead
  exact absurd hdead (by simp)

theorem yields_add_text (ht : t.Linked) : (add p (.text text) index after).Yields t
    (fun c t' => ∃ spec rest, Css.parse text = .ok (spec :: rest) ∧ c = t.next ∧
      Placed (t.grow spec) p c index after t')
    (fun _ t' => t' = t) :=
  (yields_add_text_unless ht).mono (fun _ _ h => h) fun _ _ h => h.1

/-- The node that a child stands for, and the tree that has it. -/
inductive Supplies (t : Tree) : Child → Tree → Handle → Prop
  | node (c : Handle) : Supplies t (.node c) t c
  | text {text : String} {spec : Spec} {rest : List Spec}
      (hparse : Css.parse text = .ok (spec :: rest)) : Supplies t (.text text) (t.grow spec) t.next

theorem Supplies.steps (ht : t.Linked) {child : Child} (h : Supplies t child u c) : Steps t u := by
  cases h with
  | node => exact Relation.ReflTransGen.refl
  | @text text spec rest hparse =>
    obtain ⟨b, hb⟩ := ht.grow spec
    exact hb.steps

theorem yields_add (ht : t.Linked) (child : Child) : (add p child index after).Yields t
    (fun c t' => ∃ u, Supplies t child u c ∧ Placed u p c index after t') (fun _ t' => t' = t) := by
  cases child with
  | node c =>
    refine (yields_add_node ht).mono ?_ fun _ _ h => h.1
    rintro c' t' ⟨rfl, h⟩
    exact ⟨t, Supplies.node c', h⟩
  | text text =>
    refine (yields_add_text ht).mono ?_ fun _ _ h => h
    rintro c t' ⟨spec, rest, hparse, rfl, h⟩
    exact ⟨t.grow spec, Supplies.text hparse, h⟩

/-! ## Placing beside a node -/

/-- A site is a parent that lists the node. -/
theorem site?_eq_some {i : Nat} (h : t.site? id = some (p, i)) :
    t.Hangs id p ∧ ∃ n, t.get? p = some n ∧ n.children.idxOf? id = some i := by
  unfold site? at h
  simp only [Option.bind_eq_bind, Option.bind_eq_some_iff, Option.pure_def, Option.some.injEq] at h
  obtain ⟨n, hn, q, hq, j, hj, he⟩ := h
  cases he
  unfold index? at hj
  simp only [Option.bind_eq_bind, Option.bind_eq_some_iff] at hj
  obtain ⟨m, hm, q, hq', np, hnp, hi⟩ := hj
  rw [hn] at hm
  cases hm
  rw [hq] at hq'
  cases hq'
  exact ⟨⟨n, hn, hq⟩, np, hnp, hi⟩

theorem yields_insertBeside (ht : t.Linked) (child : Child) :
    (insertBeside after id child).Yields t
      (fun r t' => r = none ∧ t.site? id = none ∧ t' = t ∨ ∃ p i c u, t.site? id = some (p, i) ∧
        r = some c ∧ Supplies t child u c ∧ Placed u p c (some i) after t')
      (fun _ t' => t' = t) := by
  unfold insertBeside
  rw [yields_bind, yields_node]
  refine ⟨fun n _ => ?_, fun _ => rfl⟩
  rw [yields_bind, yields_get]
  cases hsite : t.site? id with
  | none => exact Or.inl ⟨rfl, rfl, rfl⟩
  | some site =>
    obtain ⟨p, i⟩ := site
    show Action.Yields (some <$> add p child (some i) after) t _ _
    rw [yields_map]
    refine (yields_add ht child).mono ?_ fun _ _ h => h
    rintro c t' ⟨u, hu, hplaced⟩
    exact Or.inr ⟨p, i, c, u, rfl, rfl, hu, hplaced⟩

/-- A new branch can always be placed beside a node that was there before. -/
theorem yields_insertBeside_new (after : Bool) (hu : u.Linked) (hid : u.get? id = some n)
    {b : Branch} (hb : u.Shows b) (hid' : ∀ p, u.Hangs id p → p ∉ b.handles) :
    (insertBeside after id (.node b.id)).Yields u
      (fun r t' => r = none ∧ u.site? id = none ∧ t' = u ∨ ∃ p i, u.site? id = some (p, i) ∧
        r = some b.id ∧ Placed u p b.id (some i) after t')
      (fun _ _ => False) := by
  unfold insertBeside
  rw [yields_bind, yields_node]
  refine ⟨fun _ _ => ?_, fun hnone => absurd hnone (by rw [hid]; simp)⟩
  rw [yields_bind, yields_get]
  cases hsite : u.site? id with
  | none => exact Or.inl ⟨rfl, rfl, rfl⟩
  | some site =>
    obtain ⟨p, i⟩ := site
    obtain ⟨hh, np, hp, -⟩ := site?_eq_some hsite
    show Action.Yields (some <$> add p (.node b.id) (some i) after) u _ _
    rw [yields_map]
    refine (yields_add_node hu).mono ?_ ?_
    · rintro c t' ⟨rfl, hplaced⟩
      exact Or.inr ⟨p, i, rfl, rfl, hplaced⟩
    · rintro e t' ⟨-, ⟨-, hdead | hdead⟩ | ⟨-, hbelow⟩⟩
      · rw [hp] at hdead
        exact absurd hdead (by simp)
      · rw [hb.get?] at hdead
        exact absurd hdead (by simp)
      · exact hid' p hh ((hb.mem_handles_iff hu).mpr hbelow)

/-- A copy is made next to an unchanged tree and then placed beside its original. -/
theorem yields_copyBeside_unless (ht : t.Linked) :
    Action.Yields (do
      let clone ← copy id
      insertBeside after id (.node clone)) t
      (fun r t' => ∃ spec, Copies t id spec ∧
        (r = none ∧ (t.grow spec).site? id = none ∧ t' = t.grow spec ∨
          ∃ p i, (t.grow spec).site? id = some (p, i) ∧
            r = some t.next ∧ Placed (t.grow spec) p t.next (some i) after t'))
      (fun _ t' => t' = t ∧ ∀ spec, ¬ Copies t id spec) := by
  rw [yields_bind]
  refine yields_copy_unless.mono ?_ fun _ _ h => h
  rintro c t' ⟨spec, hcopies, rfl, rfl⟩
  obtain ⟨n, hn⟩ := hcopies.live
  obtain ⟨b, hb⟩ := ht.grow spec
  have hnew := yields_insertBeside_new after (hb.steps.linked ht) (hb.frame id n hn) hb.shows
    (hb.notMem_of_hangs ht hn)
  rw [hb.id_eq] at hnew
  refine hnew.mono ?_ fun _ _ h => h.elim
  rintro r t' (⟨rfl, hsite, rfl⟩ | ⟨p, i, hsite, rfl, hplaced⟩)
  · exact ⟨spec, hcopies, Or.inl ⟨rfl, hsite, rfl⟩⟩
  · exact ⟨spec, hcopies, Or.inr ⟨p, i, hsite, rfl, hplaced⟩⟩

theorem yields_copyBeside (ht : t.Linked) :
    Action.Yields (do
      let clone ← copy id
      insertBeside after id (.node clone)) t
      (fun r t' => ∃ spec, Copies t id spec ∧
        (r = none ∧ t' = t.grow spec ∨ ∃ p i, (t.grow spec).site? id = some (p, i) ∧
          r = some t.next ∧ Placed (t.grow spec) p t.next (some i) after t'))
      (fun _ t' => t' = t) := by
  refine (yields_copyBeside_unless ht).mono ?_ fun _ _ h => h.1
  rintro r t' ⟨spec, hcopies, h⟩
  exact ⟨spec, hcopies, h.imp_left fun h => ⟨h.1, h.2.2⟩⟩

theorem yields_change {f : Node → Node} : (change id f).Yields t
    (fun _ t' => (∃ n, t.get? id = some n) ∧ t' = t.update id f) (fun _ t' => t' = t) := by
  unfold change
  rw [yields_bind, yields_node]
  exact ⟨fun n hn => ⟨⟨n, hn⟩, rfl⟩, fun _ => rfl⟩

/-- A prefixed copy is renamed before it is placed. -/
theorem yields_copyPrefixed_unless (ht : t.Linked) (affix : String) :
    (copyPrefixed id affix).Yields t
    (fun r t' => ∃ n spec u, t.get? id = some n ∧ Copies t id spec ∧
      u = (t.grow spec).update t.next (fun m => m.rename (some (affix ++ n.name.getD ""))) ∧
      (r = none ∧ u.site? id = none ∧ t' = u ∨ ∃ p i, u.site? id = some (p, i) ∧
        r = some t.next ∧ Placed u p t.next (some i) false t'))
    (fun _ t' => t' = t ∧ ∀ spec, ¬ Copies t id spec) := by
  unfold copyPrefixed
  rw [yields_bind, yields_node]
  refine ⟨fun n hn => ?_, fun hdead => ⟨rfl, fun spec h => ?_⟩⟩
  case refine_2 =>
    obtain ⟨n, hn⟩ := h.live
    rw [hdead] at hn
    exact absurd hn (by simp)
  show Action.Yields (copy id >>= _) t _ _
  rw [yields_bind]
  refine yields_copy_unless.mono ?_ fun _ _ h => h
  rintro c t' ⟨spec, hcopies, rfl, rfl⟩
  obtain ⟨b, hb⟩ := ht.grow spec
  have hlive : (t.grow spec).get? t.next = some b.node := hb.id_eq ▸ hb.shows.get?
  unfold setName change
  rw [yields_bind, yields_bind, yields_node]
  refine ⟨fun _ _ => ?_, fun hnone => absurd hnone (by rw [hlive]; simp)⟩
  rw [yields_modify, yields_bind, yields_report]
  generalize hname : affix ++ n.name.getD "" = name
  generalize hu : (t.grow spec).update t.next (fun m => m.rename (some name)) = u
  have hstep : Step (t.grow spec) u := hu ▸ Step.change _ _ (Node.retouch_rename _)
  have hul : u.Linked := hstep.linked (hb.steps.linked ht)
  -- renaming the copy moves nothing, so its branch is where it was
  have hne : id ≠ t.next := by
    rintro rfl
    rw [get?_next ht.sound] at hn
    exact absurd hn (by simp)
  have hidu : u.get? id = some n := by
    rw [← hu, get?_update, if_neg hne, hb.frame id n hn]
  have hlive' : u.get? t.next = some (b.node.rename (some name)) := by
    rw [← hu, get?_update, if_pos rfl, hlive, Option.map_some]
  obtain ⟨b', -, hb'id, hb'⟩ := hul.exists_branch? hlive'
  have hmem : ∀ p, u.Hangs id p → p ∉ b'.handles := by
    intro p hp hmem
    rw [hb'.mem_handles_iff hul, hb'id] at hmem
    have hiff : ∀ a d, u.Hangs a d ↔ (t.grow spec).Hangs a d := fun a d =>
      hu ▸ hangs_change fun _ => rfl
    have hbelow : (t.grow spec).Beneath p t.next :=
      Relation.ReflTransGen.mono (fun a d => (hiff a d).mp) _ _ hmem
    refine hb.notMem_of_hangs ht hn p ((hiff _ _).mp hp) ?_
    rwa [hb.shows.mem_handles_iff (hb.steps.linked ht), hb.id_eq]
  have hnew := yields_insertBeside_new false hul hidu hb' hmem
  rw [hb'id] at hnew
  refine hnew.mono ?_ fun _ _ h => h.elim
  rintro r t' (⟨rfl, hsite, rfl⟩ | ⟨p, i, hsite, rfl, hplaced⟩)
  · exact ⟨n, spec, _, hn, hcopies, by rw [← hu, ← hname], Or.inl ⟨rfl, hsite, rfl⟩⟩
  · exact ⟨n, spec, u, hn, hcopies, by rw [← hu, ← hname], Or.inr ⟨p, i, hsite, rfl, hplaced⟩⟩

theorem yields_copyPrefixed (ht : t.Linked) (affix : String) : (copyPrefixed id affix).Yields t
    (fun r t' => ∃ n spec u, t.get? id = some n ∧ Copies t id spec ∧
      u = (t.grow spec).update t.next (fun m => m.rename (some (affix ++ n.name.getD ""))) ∧
      (r = none ∧ t' = u ∨ ∃ p i, u.site? id = some (p, i) ∧
        r = some t.next ∧ Placed u p t.next (some i) false t'))
    (fun _ t' => t' = t) := by
  refine (yields_copyPrefixed_unless ht affix).mono ?_ fun _ _ h => h.1
  rintro r t' ⟨n, spec, u, hn, hcopies, hu, h⟩
  exact ⟨n, spec, u, hn, hcopies, hu, h.imp_left fun h => ⟨h.1, h.2.2⟩⟩

/-! ## Taking nodes out -/

theorem yields_detach : (detach id).Yields t
    (fun r t' => r = id ∧ (∃ n, t.get? id = some n) ∧ t' = t.unlink id) (fun _ t' => t' = t) := by
  unfold detach
  rw [yields_bind, yields_node]
  exact ⟨fun n hn => ⟨rfl, ⟨n, hn⟩, rfl⟩, fun _ => rfl⟩

theorem yields_remove : (remove id).Yields t
    (fun r t' => r = id ∧ (∃ n, t.get? id = some n) ∧ t' = t.prune id)
    (fun _ t' => t.get? id = none ∧ t' = t) := by
  unfold remove
  rw [yields_bind, yields_node]
  exact ⟨fun n hn => ⟨rfl, ⟨n, hn⟩, rfl⟩, fun hn => ⟨hn, rfl⟩⟩

/-- Replacing a node removes it first, and the removal stays if the child cannot be placed. -/
theorem yields_replaceWith (ht : t.Linked) (child : Child) : (replaceWith id child).Yields t
    (fun r t' => r = none ∧ t.site? id = none ∧ t' = t ∨ ∃ p i c u, t.site? id = some (p, i) ∧
      r = some c ∧ Supplies (t.prune id) child u c ∧ Placed u p c (some i) false t')
    (fun _ t' => t' = t ∨ (∃ site, t.site? id = some site) ∧ t' = t.prune id) := by
  unfold replaceWith
  rw [yields_bind, yields_node]
  refine ⟨fun n hn => ?_, fun _ => Or.inl rfl⟩
  rw [yields_bind, yields_get]
  cases hsite : t.site? id with
  | none => exact Or.inl ⟨rfl, rfl, rfl⟩
  | some site =>
    obtain ⟨p, i⟩ := site
    show Action.Yields (remove id >>= fun _ => some <$> add p child (some i) false) t _ _
    rw [yields_bind]
    refine yields_remove.mono ?_ fun _ _ h => Or.inl h.2
    rintro _ t' ⟨-, -, rfl⟩
    rw [yields_map]
    refine (yields_add (ht.prune hn) child).mono ?_ fun _ _ h => Or.inr ⟨⟨_, rfl⟩, h⟩
    rintro c t' ⟨u, hu, hplaced⟩
    exact Or.inr ⟨p, i, c, u, rfl, rfl, hu, hplaced⟩

/-! ## New content -/

/-- New orphans that can be linked to a node one after the other. -/
structure Orphans (t : Tree) (id : Handle) (cs : List Handle) : Prop where
  nodup : cs.Nodup
  orphan : ∀ c ∈ cs, ∃ n, t.get? c = some n ∧ n.parent = none
  notAbove : ∀ c ∈ cs, ¬ t.Beneath id c

/-- Linking an orphan to a node leaves the way up from that node alone. -/
theorem beneath_of_link {position : Option Nat} {nc : Node} (hc : t.get? c = some nc)
    (horphan : nc.parent = none) (hb : ¬ t.Beneath p c) (h : (t.link p c position).Beneath p y) :
    t.Beneath p y := by
  have hne : c ≠ p := fun he => hb (he ▸ Beneath.refl t c)
  induction h with
  | refl => exact Beneath.refl t p
  | tail _ hh ih =>
    rcases (hangs_link hne hc horphan).mp hh with hh | ⟨rfl, -⟩
    · exact ih.trans (Beneath.of_hangs hh)
    · exact absurd ih hb

theorem Orphans.steps_link (ht : t.Linked) {cs : List Handle} (h : Orphans t id cs)
    (hid : t.get? id = some n) : Steps t (cs.foldl (fun t c => t.link id c none) t) := by
  induction cs generalizing t n with
  | nil => exact Relation.ReflTransGen.refl
  | cons c cs ih =>
    obtain ⟨nc, hc, horphan⟩ := h.orphan c (List.mem_cons_self ..)
    have hb := h.notAbove c (List.mem_cons_self ..)
    have hne : c ≠ id := fun he => hb (he ▸ Beneath.refl t c)
    have hnd := List.nodup_cons.mp h.nodup
    have hstep : Step t (t.link id c none) := Step.link t id c none hid hc horphan (by simp) hb
    refine Relation.ReflTransGen.head hstep (ih (hstep.linked ht) ⟨hnd.2, ?_, ?_⟩
      (by rw [get?_link t hne, if_pos rfl, hid, Option.map_some]))
    · intro d hd
      have hdc : d ≠ c := fun he => hnd.1 (he ▸ hd)
      have hdid : d ≠ id := fun he =>
        h.notAbove d (List.mem_cons_of_mem _ hd) (he ▸ Beneath.refl t d)
      rw [get?_link t hne, if_neg hdid, if_neg hdc]
      exact h.orphan d (List.mem_cons_of_mem _ hd)
    · exact fun d hd hd' =>
        h.notAbove d (List.mem_cons_of_mem _ hd) (beneath_of_link hc horphan hb hd')

/-- All texts of a new content made into orphans, next to an unchanged tree. -/
theorem yields_mapM_plantText (ht : t.Linked) (hid : t.get? id = some n) (texts : List String) :
    (texts.mapM (plantText id)).Yields t
      (fun cs t' => Steps t t' ∧ (∀ k m, t.get? k = some m → t'.get? k = some m) ∧
        Orphans t' id cs ∧ ∀ c ∈ cs, t.get? c = none)
      (fun _ t' => Steps t t' ∧ ∀ k m, t.get? k = some m → t'.get? k = some m) := by
  induction texts generalizing t with
  | nil =>
    exact ⟨Relation.ReflTransGen.refl, fun _ _ h => h, ⟨List.nodup_nil, by simp, by simp⟩, by simp⟩
  | cons text texts ih =>
    rw [List.mapM_cons, yields_bind]
    refine yields_plantText.mono ?_ ?_
    · rintro c u ⟨spec, rest, -, rfl, rfl⟩
      obtain ⟨b, hb⟩ := ht.grow spec
      have hu : (t.grow spec).Linked := hb.steps.linked ht
      have hc : (t.grow spec).get? t.next = some b.node := hb.id_eq ▸ hb.shows.get?
      rw [yields_bind]
      refine (ih hu (hb.frame id n hid)).mono ?_ ?_
      · rintro cs u' ⟨hsteps, hframe, horphans, hfresh⟩
        rw [yields_pure]
        refine ⟨hb.steps.trans hsteps, fun k m hk => hframe k m (hb.frame k m hk), ⟨?_, ?_, ?_⟩, ?_⟩
        · refine List.nodup_cons.mpr ⟨fun hmem => ?_, horphans.nodup⟩
          rw [hfresh _ hmem] at hc
          exact absurd hc (by simp)
        · intro d hd
          rcases List.mem_cons.mp hd with rfl | hd
          · exact ⟨b.node, hframe _ _ hc, hb.orphan⟩
          · exact horphans.orphan d hd
        · intro d hd
          rcases List.mem_cons.mp hd with rfl | hd
          · rw [hu.beneath_of_frame hsteps hframe (hb.frame id n hid), ← hb.id_eq,
              ← hb.shows.mem_handles_iff hu]
            intro hmem
            rw [hb.fresh id hmem] at hid
            exact absurd hid (by simp)
          · exact horphans.notAbove d hd
        · intro d hd
          rcases List.mem_cons.mp hd with rfl | hd
          · exact get?_next ht.sound
          · cases hk : t.get? d with
            | none => rfl
            | some m =>
              have hd' := hfresh d hd
              rw [hb.frame d m hk] at hd'
              exact absurd hd' (by simp)
      · rintro e u' ⟨hsteps, hframe⟩
        exact ⟨hb.steps.trans hsteps, fun k m hk => hframe k m (hb.frame k m hk)⟩
    · rintro e u rfl
      exact ⟨Relation.ReflTransGen.refl, fun _ _ h => h⟩

/-- The old children of a node are let go after all new ones have been made. -/
theorem yields_replaceContent (ht : t.Linked) (texts : List String) :
    (replaceContent id texts).Yields t
      (fun _ t' => ∃ n cs u, t.get? id = some n ∧ Steps t u ∧
        (∀ k m, t.get? k = some m → u.get? k = some m) ∧ Orphans u id cs ∧
        (∀ c ∈ cs, t.get? c = none) ∧
        t' = cs.foldl (fun t c => t.link id c none) (u.release id n.children))
      (fun _ t' => Steps t t' ∧ ∀ k m, t.get? k = some m → t'.get? k = some m) := by
  unfold replaceContent
  rw [yields_bind, yields_node]
  refine ⟨fun n hid => ?_, fun _ => ⟨Relation.ReflTransGen.refl, fun _ _ h => h⟩⟩
  rw [yields_bind]
  refine (yields_mapM_plantText ht hid texts).mono ?_ fun _ _ h => h
  rintro cs u ⟨hsteps, hframe, horphans, hfresh⟩
  rw [yields_bind, yields_node]
  refine ⟨fun m hm => ?_, fun hnone => ?_⟩
  · rw [hframe id n hid] at hm
    cases hm
    exact ⟨n, cs, u, hid, hsteps, hframe, horphans, hfresh, rfl⟩
  · rw [hframe id n hid] at hnone
    exact absurd hnone (by simp)

/-- Letting the children of a node go keeps new orphans as they are. -/
theorem Orphans.release (ht : t.Linked) {cs : List Handle} (h : Orphans t id cs)
    (hid : t.get? id = some n) : Orphans (t.release id n.children) id cs where
  nodup := h.nodup
  orphan := by
    intro c hc
    obtain ⟨m, hm, hp⟩ := h.orphan c hc
    rw [get?_release, hm, Option.map_some]
    exact ⟨_, rfl, by simp [hp]⟩
  notAbove := fun c hc hb => h.notAbove c hc
    (Relation.ReflTransGen.mono (fun _ _ hh => ((hangs_release ht hid).mp hh).1) _ _ hb)

end StyleTree.Edit
