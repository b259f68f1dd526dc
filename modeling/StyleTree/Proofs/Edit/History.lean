import StyleTree.Proofs.Arena.Issued
import StyleTree.Proofs.Edit.Lasting

/-!
# Handles that are never confused

A client keeps handles while it edits a tree, and slots are used again after the tree has been
compacted.  This module says why a handle that was kept can be trusted all the same.  Along every
sequence of edits the handles that are given out are different from each other.  A handle is lost in
compaction alone, and then for good.

Compaction apart, an edit makes new nodes and changes nodes, and nothing more, so what it gives out
can be read off the insertions.  `Mints` does that for one edit and `History` for a sequence of
edits from the beginning; the list in it has the root first.  The versions in that list are in order
(`Arena.Issued`), and everything follows from there.  Walks need no histories of their own, because
whatever a client does is a sequence of edits (`Client.edits`).

* `Mints t new u`: `u` is `t` after insertions, which gave out the handles `new`, and changes.
* `Mints.live_iff`: its nodes are the old ones and the new ones.
* `History given t`: edits have led to `t`, and `given` are the handles that were given out on the
  way.
* `History.exists_new`: a history goes on with every edit, and the handles that it adds are those
  that have a node afterwards and had none before.
* `Steps.kind_or_freed`: a node keeps its kind until its handle is freed.
* `handles_given_once`: what a client can rely on.
-/

namespace StyleTree

section General

variable [Data]

namespace Tree

variable {t u : Tree} {given new : List Handle} {k : Handle} {n : Node}

/-! ## What an edit gives out -/

/-- The second tree is the first one after new nodes and changes of nodes.  The list has the handles
of the new nodes, the first one first. -/
inductive Mints (t : Tree) : List Handle → Tree → Prop
  | refl : Mints t [] t
  | insert {new : List Handle} {u : Tree} (h : Mints t new u) (node : Node) :
      Mints t (new ++ [u.next]) (u.insert node)
  | update {new : List Handle} {u : Tree} (h : Mints t new u) (id : Handle) (f : Node → Node) :
      Mints t new (u.update id f)

/-- Whatever has been given out, insertions add to it and changes leave it. -/
theorem robust_mints (t : Tree) (first : List Handle) :
    Robust fun u => ∃ new, Mints t (first ++ new) u where
  insert := by
    rintro u node ⟨new, h⟩
    refine ⟨new ++ [u.next], ?_⟩
    rw [← List.append_assoc]
    exact h.insert node
  update := fun _ id f ⟨new, h⟩ => ⟨new, h.update id f⟩

/-- The topmost node of a description is made first. -/
theorem mints_grow (t : Tree) (spec : Spec) : ∃ new, Mints t (t.next :: new) (t.grow spec) := by
  obtain ⟨kind, name, value, block, children⟩ := spec
  rw [Tree.grow]
  exact (robust_mints t [t.next]).growAll _ _ children ⟨[], Mints.refl.insert _⟩

theorem Mints.issued (h : Mints t new u) (ht : t.arena.Issued given) :
    u.arena.Issued (given ++ new) := by
  induction h with
  | refl => rwa [List.append_nil]
  | insert _ node ih =>
    rw [← List.append_assoc]
    exact ih.insert node
  | update _ id f ih => exact ih.modify id f

theorem Mints.sound (h : Mints t new u) (ht : t.arena.Sound) : u.arena.Sound := by
  induction h with
  | refl => exact ht
  | insert _ node ih => exact ih.insert node
  | update _ id f ih => exact ih.modify id f

/-- The nodes are the old ones and the new ones. -/
theorem Mints.live_iff (h : Mints t new u) (ht : t.arena.Sound) :
    (∃ n, u.get? k = some n) ↔ (∃ n, t.get? k = some n) ∨ k ∈ new := by
  induction h with
  | refl => simp
  | @insert new u h node ih =>
    rw [get?_insert (h.sound ht), List.mem_append, List.mem_singleton, ← or_assoc, ← ih]
    by_cases hk : k = u.next
    · simp [hk]
    · simp [hk]
  | update _ id f ih =>
    rw [← ih, get?_update]
    by_cases hk : k = id
    · simp [hk]
    · simp [hk]

end Tree

open StyleTree.Tree

/-- An edit makes new nodes and changes nodes, unless it is compaction. -/
theorem Edit.Public.mints_or_compacts {α : Type} {x : Edit α} (hx : x.Public) (t : Tree) :
    (∃ new, Mints t new (x.run t).state) ∨ (⟨α, x⟩ : Sigma Edit) = ⟨Nat, Edit.compact⟩ :=
  (hx.keeps_or_compacts (robust_mints t [])).imp_left fun hkeeps => hkeeps.state ⟨[], Mints.refl⟩

/-- The edits that make a node and return its handle.  Whatever else makes nodes calls one of
these. -/
inductive Edit.Makes : Edit Handle → Prop
  | create (kind : Kind) : Makes (create kind)
  | plant (spec : Spec) : Makes (plant spec)
  | plantText (parent : Handle) (text : String) : Makes (plantText parent text)
  | copy (id : Handle) : Makes (copy id)
  | addText (parent : Handle) (text : String) (index : Option Nat) (after : Bool) :
      Makes (add parent (.text text) index after)

/-- The handle that is returned is the first one given out. -/
theorem Edit.Makes.exists_mints {x : Edit Handle} (hx : x.Makes) {t : Tree}
    (ht : t.Linked) {k : Handle} (hk : (x.run t).result = .ok k) :
    ∃ new, Mints t (k :: new) (x.run t).state := by
  cases hx with
  | create kind =>
    cases hk
    exact ⟨[], Mints.refl.insert _⟩
  | plant spec =>
    cases hk
    exact mints_grow t spec
  | plantText parent text =>
    obtain ⟨spec, rest, -, rfl, hstate⟩ := yields_plantText.of_ok hk
    rw [hstate]
    exact mints_grow t spec
  | copy id =>
    obtain ⟨spec, -, rfl, hstate⟩ := yields_copy.of_ok hk
    rw [hstate]
    exact mints_grow t spec
  | addText parent text index after =>
    obtain ⟨spec, rest, -, rfl, hplaced⟩ := (yields_add_text ht).of_ok hk
    generalize ((add parent (.text text) index after).run t).state = u at hplaced ⊢
    have hP := robust_mints t [t.next]
    cases hplaced with
    | mk => exact hP.link (hP.unlink (mints_grow t spec) _) _ _ _

namespace Tree

variable {t u : Tree} {given new : List Handle} {k : Handle} {n : Node}

/-! ## Histories -/

/-- Edits have led to a tree, from an empty tree or from a stylesheet, and whether they succeeded or
failed.  The list has the handles that were given out on the way, the root's first. -/
inductive History : List Handle → Tree → Prop
  | empty : History [Tree.empty.root] Tree.empty
  | stylesheet {specs : List Spec} {new : List Handle}
      (hnew : Mints Tree.empty new (Tree.ofSpecs specs)) :
      History (Tree.empty.root :: new) (Tree.ofSpecs specs)
  | edit {given new : List Handle} {t : Tree} {α : Type} {x : Edit α} (h : History given t)
      (hx : x.Public) (hnew : Mints t new (x.run t).state) : History (given ++ new) (x.run t).state
  | compact {given : List Handle} {t : Tree} (h : History given t) :
      History given (Edit.compact.run t).state

namespace History

theorem linked (h : History given t) : t.Linked := by
  induction h with
  | empty => exact linked_empty
  | stylesheet _ => exact linked_ofSpecs _
  | edit _ hx _ ih => exact (hx.steps ih).linked ih
  | compact _ ih => exact ih.compact

theorem root (h : History given t) : t.root = Tree.empty.root := by
  induction h with
  | empty => rfl
  | stylesheet _ => exact (steps_ofSpecs _).root
  | edit h hx _ ih => exact ((hx.steps h.linked).root).trans ih
  | compact _ ih => exact ih

/-- The handles of a history are those that the arena has given out. -/
theorem issued (h : History given t) : t.arena.Issued given := by
  have hempty : Tree.empty.arena.Issued [Tree.empty.root] := Arena.issued_empty.insert _
  induction h with
  | empty => exact hempty
  | stylesheet hnew => exact hnew.issued hempty
  | edit _ _ hnew ih => exact hnew.issued ih
  | compact _ ih => exact ih.retain _

/-- A history goes on with every edit.  It adds the handles that have a node now and had none
before. -/
theorem exists_new (h : History given t) {α : Type} {x : Edit α} (hx : x.Public) :
    ∃ new, History (given ++ new) (x.run t).state ∧
      ∀ k, k ∈ new ↔ (∃ n, (x.run t).state.get? k = some n) ∧ t.get? k = none := by
  rcases hx.mints_or_compacts t with ⟨new, hnew⟩ | hcompact
  · have hnext := h.edit hx hnew
    refine ⟨new, hnext, fun k => ⟨fun hk => ?_, fun ⟨hlive, hdead⟩ => ?_⟩⟩
    · refine ⟨(hnew.live_iff h.issued.sound).mpr (Or.inr hk), ?_⟩
      -- what has a node was given out before, and nothing is given out twice
      refine Option.eq_none_iff_forall_ne_some.mpr fun n hn => ?_
      have hgiven := h.issued.mem_of_get? k n hn
      exact (List.nodup_append.mp hnext.issued.numbered.nodup).2.2 k hgiven k hk rfl
    · refine ((hnew.live_iff h.issued.sound).mp hlive).resolve_left fun ⟨n, hn⟩ => ?_
      exact absurd (hn.symm.trans hdead) (by simp)
  · cases hcompact
    refine ⟨[], ?_, fun k => iff_of_false List.not_mem_nil ?_⟩
    · rw [List.append_nil]
      exact h.compact
    · rintro ⟨⟨n, hn⟩, hdead⟩
      have hn : t.compact.get? k = some n := hn
      rw [get?_compact, hdead, ite_self] at hn
      exact absurd hn (by simp)

/-- An edit that returns a node that it has made returns a handle that was not given out before. -/
theorem notMem_of_makes (h : History given t) {x : Edit Handle} (hx : x.Makes)
    (hk : (x.run t).result = .ok k) : k ∉ given ∧ ∃ n, (x.run t).state.get? k = some n := by
  obtain ⟨new, hnew⟩ := hx.exists_mints h.linked hk
  have hnodup := (hnew.issued h.issued).numbered.nodup
  constructor
  · exact fun hgiven => (List.nodup_append.mp hnodup).2.2 k hgiven k (List.mem_cons_self ..) rfl
  · exact (hnew.live_iff h.issued.sound).mpr (Or.inr (List.mem_cons_self ..))

/-- A node is lost in compaction alone, and the root is not lost there either. -/
theorem compacts_of_lost (h : History given t) {α : Type} {x : Edit α} (hx : x.Public)
    (hn : t.get? k = some n) (hlost : (x.run t).state.get? k = none) :
    (⟨α, x⟩ : Sigma Edit) = ⟨Nat, Edit.compact⟩ ∧ k ≠ t.root := by
  constructor
  · refine (hx.mints_or_compacts t).resolve_left fun ⟨new, hnew⟩ => ?_
    obtain ⟨m, hm⟩ := (hnew.live_iff h.issued.sound).mpr (Or.inl ⟨n, hn⟩)
    exact absurd (hm.symm.trans hlost) (by simp)
  · rintro rfl
    have hsteps := hx.steps h.linked
    obtain ⟨m, hm⟩ := (hsteps.linked h.linked).root
    rw [hsteps.root, hlost] at hm
    exact absurd hm (by simp)

end History

/-! ## A node as long as it is there -/

theorem Step.mints_or_compacts (h : Step t u) : (∃ new, Mints t new u) ∨ u = t.compact := by
  have hP := robust_mints t []
  have ht : ∃ new, Mints t ([] ++ new) t := ⟨[], Mints.refl⟩
  cases h with
  | insert node => exact Or.inl (hP.insert _ _ ht)
  | change id => exact Or.inl (hP.update _ _ _ ht)
  | link p c position => exact Or.inl (hP.link ht p c position)
  | unlink id => exact Or.inl (hP.unlink ht id)
  | prune id => exact Or.inl (hP.prune ht id)
  | release id => exact Or.inl (release_induction hP.update ht id _)
  | compact => exact Or.inr rfl

theorem Step.live_or_freed (h : Step t u) (ht : t.Linked) (hn : t.get? k = some n) :
    (∃ m, u.get? k = some m) ∨ u.arena.Freed k := by
  rcases h.mints_or_compacts with ⟨new, hnew⟩ | rfl
  · exact Or.inl ((hnew.live_iff ht.sound).mpr (Or.inl ⟨n, hn⟩))
  · by_cases hk : t.Beneath k t.root
    · rw [get?_compact, if_pos (ht.mem_reached_iff.mpr hk)]
      exact Or.inl ⟨n, hn⟩
    · exact Or.inr (freed_compact ht hn hk)

/-- A node keeps its kind until its handle is freed. -/
theorem Steps.kind_or_freed (h : Steps t u) (ht : t.Linked) (hn : t.get? k = some n) :
    (∃ m, u.get? k = some m ∧ m.kind = n.kind) ∨ u.arena.Freed k := by
  induction h with
  | refl => exact Or.inl ⟨n, hn, rfl⟩
  | @tail v w hs h ih =>
    have hv : v.Linked := Steps.linked hs ht
    rcases ih with ⟨m, hm, hkind⟩ | hfreed
    · refine (h.live_or_freed hv hm).imp_left fun ⟨m', hm'⟩ => ?_
      exact ⟨m', hm', (h.kind hv hm hm').trans hkind⟩
    · exact Or.inr (h.freed hv.sound hfreed)

/-! ## What a client can rely on -/

/-- Along every sequence of edits, whatever their outcomes:

* no handle is given out twice; the version of a handle counts the handles that its slot has given
  out before, so it fits into 32 bits if the slot has been taken again fewer than 2³¹ = 2147483648
  times;
* every node has a handle that was given out, the handles that the next edit gives out are those
  that have a node after it and had none before, and an edit that returns a node it has made returns
  one of these;
* the root is always there, under one handle, and another node is lost in compaction alone;
* a handle that has lost its node has none ever after, and a handle that has one leads to a node of
  the same kind as long as it leads anywhere. -/
theorem handles_given_once (h : History given t) :
    (given.Nodup ∧
      (∀ before k after, given = before ++ k :: after →
        k.version = 2 * givenFrom k.index before + 1) ∧
      ∀ k ∈ given, givenFrom k.index given ≤ 2147483648 → k.version < 4294967296) ∧
    (∀ k n, t.get? k = some n → k ∈ given) ∧
    (∀ (α : Type) (x : Edit α), x.Public → ∃ new, History (given ++ new) (x.run t).state ∧
      ∀ k, k ∈ new ↔ (∃ n, (x.run t).state.get? k = some n) ∧ t.get? k = none) ∧
    (∀ x : Edit Handle, x.Makes → ∀ k, (x.run t).result = .ok k →
      k ∉ given ∧ ∃ n, (x.run t).state.get? k = some n) ∧
    (t.root = Tree.empty.root ∧ ∃ n, t.get? t.root = some n) ∧
    (∀ (α : Type) (x : Edit α), x.Public → ∀ k n, t.get? k = some n →
      (x.run t).state.get? k = none → (⟨α, x⟩ : Sigma Edit) = ⟨Nat, Edit.compact⟩ ∧ k ≠ t.root) ∧
    ∀ u, Edits t u →
      (∀ k ∈ given, t.get? k = none → u.get? k = none) ∧
      ∀ k n m, t.get? k = some n → u.get? k = some m → m.kind = n.kind := by
  have ht := h.linked
  have hissued := h.issued
  refine ⟨⟨hissued.numbered.nodup, hissued.numbered, fun k hk hfew => ?_⟩, hissued.mem_of_get?,
    fun α x hx => h.exists_new hx, fun x hx k hk => h.notMem_of_makes hx hk, ⟨h.root, ht.root⟩,
    fun α x hx k n hn hlost => h.compacts_of_lost hx hn hlost,
    fun u hu => ⟨fun k hk hdead => ?_, fun k n m hn hm => ?_⟩⟩
  · have hlt := hissued.numbered.version_lt hk
    omega
  · exact ((hu.steps ht).freed ht (hissued.freed k hk hdead)).get?_eq_none
  · rcases (hu.steps ht).kind_or_freed ht hn with ⟨m', hm', hkind⟩ | hfreed
    · obtain rfl : m = m' := Option.some.inj (hm.symm.trans hm')
      exact hkind
    · exact absurd (hm.symm.trans hfreed.get?_eq_none) (by simp)

end Tree

end General

namespace Tree

/-- A rule with a declaration below it. -/
def smallRule : Spec :=
  .rule "a" [.declaration "b" "1"]

/-- A rule is planted, freed and planted again.  The slots are taken in the other order the second
time, so the slot of the rule has the declaration now, and the handles from the first time lead
nowhere, whatever follows. -/
theorem handles_given_once_replanted :
    let planted := ((Edit.plant smallRule).run Tree.empty).state
    let t := ((Edit.plant smallRule).run (Edit.compact.run planted).state).state
    let given : List Handle := [⟨1, 1⟩, ⟨2, 1⟩, ⟨3, 1⟩, ⟨3, 3⟩, ⟨2, 3⟩]
    History given t ∧ given.Nodup ∧ (∀ k ∈ given, k.version < 4294967296) ∧
      (planted.get? ⟨2, 1⟩).map Node.kind = some .rule ∧
      (t.get? ⟨2, 3⟩).map Node.kind = some .declaration ∧
      ∀ u, Edits t u → u.get? ⟨2, 1⟩ = none ∧ u.get? ⟨3, 1⟩ = none ∧
        ∀ m, u.get? ⟨2, 3⟩ = some m → m.kind = .declaration := by
  intro planted t given
  have hmints : ∀ s : Tree,
      Mints s [s.next, (s.insert (Node.ofSpec (.rule "a" []))).next] (s.grow smallRule) := by
    intro s
    show Mints s _
      (s.grow ⟨.rule, none, some "a", true, [⟨.declaration, some "b", some "1", false, []⟩]⟩)
    rw [Tree.grow, Tree.growAll, Tree.grow, Tree.growAll, Tree.growAll]
    exact (((Mints.refl.insert _).insert _).update _ _).update _ _
  have hfirst : [Tree.empty.root] ++
      [Tree.empty.next, (Tree.empty.insert (Node.ofSpec (.rule "a" []))).next] =
        ([⟨1, 1⟩, ⟨2, 1⟩, ⟨3, 1⟩] : List Handle) := by decide +kernel
  have hplanted : History [⟨1, 1⟩, ⟨2, 1⟩, ⟨3, 1⟩] planted :=
    hfirst ▸ History.empty.edit (.plant smallRule) (hmints _)
  have hsecond : [⟨1, 1⟩, ⟨2, 1⟩, ⟨3, 1⟩] ++
      [planted.compact.next, (planted.compact.insert (Node.ofSpec (.rule "a" []))).next] =
      given := by
    decide +kernel
  have hhistory : History given t := hsecond ▸ hplanted.compact.edit (.plant smallRule) (hmints _)
  obtain ⟨⟨hnodup, -, hwidth⟩, -, -, -, -, -, hlater⟩ := handles_given_once hhistory
  have hfew : ∀ k ∈ given, givenFrom k.index given ≤ 2147483648 := by decide +kernel
  have hdead : t.get? ⟨2, 1⟩ = none ∧ t.get? ⟨3, 1⟩ = none := by
    rw [← Option.isNone_iff_eq_none, ← Option.isNone_iff_eq_none]
    decide +kernel
  have hrule : (planted.get? ⟨2, 1⟩).map Node.kind = some .rule := by decide +kernel
  have hdeclaration : (t.get? ⟨2, 3⟩).map Node.kind = some .declaration := by decide +kernel
  obtain ⟨n, hn, hkind⟩ := Option.map_eq_some_iff.mp hdeclaration
  refine ⟨hhistory, hnodup, fun k hk => hwidth k hk (hfew k hk), hrule, hdeclaration,
    fun u hu => ⟨?_, ?_, fun m hm => ?_⟩⟩
  · exact (hlater u hu).1 ⟨2, 1⟩ (by decide +kernel) hdead.1
  · exact (hlater u hu).1 ⟨3, 1⟩ (by decide +kernel) hdead.2
  · exact ((hlater u hu).2 ⟨2, 3⟩ n m hn hm).trans hkind

end Tree

end StyleTree
