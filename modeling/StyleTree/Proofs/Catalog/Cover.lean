import StyleTree.Catalog
import StyleTree.Proofs.Edit.Copy
import StyleTree.Proofs.Tree.Sprout

/-!
# Covers

The plugins of a catalog are all alike: each has one handler, for the at-rules of a name or for the
declarations of a property, and the handler puts a copy with another name before the node, unless
the parent has such a child already.  A `Cover` is one of these plugins as data.  The modules of a
catalog are lists of covers, with any names, affixes and native maps.

What a cover does to a tree does not mention edits any more:

* `Cover.Grows c t v n p b t'`: the node `n` at `v` is one that `c` has a handler for, its parent
  `p` has no such child yet, and `t'` is `t` with a branch `b` put before `v` that is described like
  the copy.
* `Cover.Settled c t v`: the parent of `v` has such a child, if `v` is plain.
* `Cover.tending_runModules`: modules of covers that are run on a node let branches grow, one after
  the other, until every cover is settled.  They fail only if the node cannot be copied.
-/

namespace StyleTree

open StyleTree.Tree StyleTree.Action Relation

variable [Data] {ι : Type} {t t' : Tree} {v p : Handle} {n m : Node}

/-- A plugin of a catalog. -/
inductive Cover where
  /-- Copies of the at-rules of a name. -/
  | atRule (name affix : String) (native : NativeMap)
  /-- Copies of the declarations of a property. -/
  | declaration (property affix : String) (native : NativeMap)

namespace Cover

/-- The plugin that a cover stands for. -/
def plugin : Cover → Plugin ι
  | atRule name affix native => Catalog.atRulePlugin name affix native
  | declaration property affix native => Catalog.declarationPlugin property affix native

/-- The kind of node that is copied. -/
def kind : Cover → Kind
  | atRule .. => .atRule
  | declaration .. => .declaration

/-- The name of the nodes that are copied. -/
def key : Cover → String
  | atRule name _ _ => name
  | declaration property _ _ => property

/-- The text that a copy has before its name. -/
def affix : Cover → String
  | atRule _ affix _ => affix
  | declaration _ affix _ => affix

/-- Since when browsers do without the copies. -/
def native : Cover → NativeMap
  | atRule _ _ native => native
  | declaration _ _ native => native

/-- The name of the copy of a node. -/
def prefixed : Cover → Node → String
  | atRule _ affix _, n => affix ++ n.name.getD ""
  | declaration property affix _, _ => affix ++ property

/-- The query for a copy that is there already. -/
def existing : Cover → Node → Query
  | atRule name affix native, n =>
    ⟨.ofKind .atRule, .ofText ((atRule name affix native).prefixed n),
      .ofText (n.value.getD ""), .any⟩
  | declaration property affix _, _ =>
    ⟨.ofKind .declaration, .ofText (affix ++ property), .any, .any⟩

/-- What the handler does to a node. -/
def edit : Cover → Handle → Edit Unit
  | atRule _ affix _, id => Catalog.coverAtRule affix id
  | declaration property affix _, id => Catalog.coverDeclaration (affix ++ property) id

/-- The node is one that there is a handler for: by its name, or by its second name. -/
def Handles (c : Cover) (n : Node) : Prop :=
  n.kind = c.kind ∧ (n.name = some c.key ∨ n.name ≠ none ∧ n.family = some c.key)

instance (c : Cover) (n : Node) : Decidable (c.Handles n) :=
  inferInstanceAs (Decidable (_ ∧ _))

theorem plugin_eq (c : Cover) : ∃ title, (c.plugin : Plugin ι) =
    (Plugin.new title (some c.native)).register c.kind .after (some c.key)
      fun id => (c.edit id).onWorkspace := by
  cases c with
  | atRule name affix native => exact ⟨_, rfl⟩
  | declaration property affix native => exact ⟨_, rfl⟩

end Cover

/-! ## The plugin of a cover -/

section Plugin

variable {title key : String} {native : Option NativeMap} {kind : Kind} {handler : Handler ι}

/-- A plugin with one handler under a name has it for the nodes that are called so. -/
theorem resolve_register (n : Node) :
    (Reaction.byName (((Plugin.new title native).table kind .after).insert key handler)).resolve n =
      if n.name = some key ∨ n.name ≠ none ∧ n.family = some key then some handler else none := by
  have htable : ∀ name : String,
      (((Plugin.new title native).table kind .after).insert key handler)[name]? =
        if name = key then some handler else none := by
    intro name
    have hempty : (Plugin.new title native : Plugin ι).table kind .after = {} := rfl
    rw [hempty, Std.TreeMap.getElem?_insert, Std.TreeMap.getElem?_emptyc]
    simp only [Std.compare_eq_iff_eq, eq_comm (a := name)]
  unfold Reaction.resolve
  cases hname : n.name with
  | none => simp
  | some name =>
    simp only [Option.bind_some, htable]
    by_cases hkey : name = key
    · simp [hkey]
    · cases hfamily : n.family with
      | none => simp [hkey]
      | some family => by_cases hf : family = key <;> simp [hkey, hf]

/-- A plugin with one handler under a name runs it on the nodes that are called so. -/
theorem yields_run_register {support : Option Targets} {phase : Phase} {id : Handle}
    {w : Workspace ι} {Q : Unit → Workspace ι → Prop} {E : Fault → Workspace ι → Prop} :
    (((Plugin.new title native).register kind .after (some key) handler).run support phase id
        n).Yields w Q E ↔
      if phase = .after ∧ gateOpen support native ∧ n.kind = kind ∧
          (n.name = some key ∨ n.name ≠ none ∧ n.family = some key)
      then (handler id).Yields w Q E else Q () w := by
  unfold Plugin.run Plugin.register
  by_cases hsame : n.kind = kind ∧ phase = .after
  · obtain ⟨rfl, rfl⟩ := hsame
    have hnative : ∀ reaction, ((Plugin.new title native : Plugin ι).setReaction n.kind .after
        reaction).native = native := fun _ => rfl
    rw [Plugin.reaction_setReaction_self]
    dsimp only
    rw [hnative]
    by_cases hgate : gateOpen support native = true
    · rw [if_pos hgate, resolve_register]
      by_cases hname : n.name = some key ∨ n.name ≠ none ∧ n.family = some key
      · rw [if_pos hname, if_pos ⟨rfl, hgate, rfl, hname⟩]
        dsimp only
        rw [yields_bind, yields_report]
      · rw [if_neg hname, if_neg fun h => hname h.2.2.2]
        exact yields_pure ..
    · rw [if_neg hgate, if_neg fun h => hgate h.2.1]
      exact yields_report ..
  · rw [Plugin.reaction_setReaction_of_ne _ _ hsame, if_neg fun h => hsame ⟨h.2.2.1, h.1⟩]
    exact yields_pure ..

end Plugin

/-! ## The edit of a cover -/

/-- A node that its parent lists has a site. -/
theorem Tree.Lists.exists_site? (ht : t.Linked) (h : t.Lists p v) :
    ∃ i, t.site? v = some (p, i) := by
  obtain ⟨n, hn, hparent⟩ := ht.hangs_of_lists p v h
  obtain ⟨np, hp, hmem⟩ := h
  obtain ⟨i, hi⟩ : ∃ i, np.children.idxOf? v = some i :=
    Option.ne_none_iff_exists'.mp fun hnone => List.idxOf?_eq_none_iff.mp hnone hmem
  refine ⟨i, ?_⟩
  simp [site?, index?, hn, hparent, hp, hi]

/-- What has grown next to a linked tree leaves the site of an old node. -/
theorem Tree.Grown.site?_eq {u : Tree} {b : Branch} {spec : Spec} (ht : t.Linked)
    (h : Grown t u spec b) (hp : t.Lists p v) : ∃ i, u.site? v = some (p, i) := by
  obtain ⟨np, hnp, hmem⟩ := hp
  exact Lists.exists_site? (h.steps.linked ht) ⟨np, h.frame p np hnp, hmem⟩

/-- A copy is put before its original. -/
theorem Edit.yields_copyBefore_sprouts (ht : t.Linked) (hn : t.get? v = some n) (hp : t.Lists p v) :
    (Edit.copyBefore v).Yields t
      (fun r t' => ∃ b spec, r = some b.id ∧ t.Sprouts p v b t' ∧ Edit.Copies t v spec ∧
        b.toSpec = spec)
      (fun _ t' => t' = t ∧ ∀ spec, ¬ Edit.Copies t v spec) := by
  show Action.Yields (do
    let clone ← Edit.copy v
    Edit.insertBeside false v (.node clone)) t _ _
  refine (Edit.yields_copyBeside_unless ht).mono ?_ fun _ _ h => h
  rintro r t' ⟨spec, hcopies, h⟩
  obtain ⟨b, hb⟩ := ht.grow spec
  obtain ⟨i, hsite⟩ := hb.site?_eq ht hp
  rw [hsite] at h
  rcases h with ⟨-, hnone, -⟩ | ⟨q, j, hsome, rfl, hplaced⟩
  · exact absurd hnone (by simp)
  · cases hsome
    rw [← hb.id_eq] at hplaced
    refine ⟨b.withParent (some p), spec, ?_, hb.sprouts ht hn hsite hplaced, hcopies, ?_⟩
    · rw [Branch.id_withParent, hb.id_eq]
    · rw [Branch.toSpec_withParent, hb.toSpec_eq]

/-- A prefixed copy is put before its original. -/
theorem Edit.yields_copyPrefixed_sprouts (ht : t.Linked) (hn : t.get? v = some n)
    (hp : t.Lists p v) (affix : String) : (Edit.copyPrefixed v affix).Yields t
      (fun _ t' => ∃ b spec, t.Sprouts p v b t' ∧ Edit.Copies t v spec ∧
        b.toSpec = { spec with name := some (affix ++ n.name.getD "") })
      (fun _ t' => t' = t ∧ ∀ spec, ¬ Edit.Copies t v spec) := by
  refine (Edit.yields_copyPrefixed_unless ht affix).mono ?_ fun _ _ h => h
  rintro r t' ⟨m, spec, u, hm, hcopies, rfl, h⟩
  obtain rfl : n = m := Option.some.inj (hn.symm.trans hm)
  obtain ⟨b, hb⟩ := ht.grow spec
  have hb' := hb.rename ht (some (affix ++ n.name.getD ""))
  rw [hb.id_eq] at hb'
  obtain ⟨i, hsite⟩ := hb'.site?_eq ht hp
  rw [hsite] at h
  rcases h with ⟨-, hnone, -⟩ | ⟨q, j, hsome, rfl, hplaced⟩
  · exact absurd hnone (by simp)
  · cases hsome
    nth_rewrite 2 [← hb'.id_eq] at hplaced
    refine ⟨_, spec, hb'.sprouts ht hn hsite hplaced, hcopies, ?_⟩
    rw [Branch.toSpec_withParent, hb'.toSpec_eq]

namespace Cover

variable {c : Cover}

/-- A branch `b` grows before a node `v` that has to be covered: it is described like the copy of
`v`, under the name of the copy. -/
structure Grows (c : Cover) (t : Tree) (v : Handle) (n : Node) (p : Handle)
    (b : Branch) (t' : Tree) : Prop where
  node : t.get? v = some n
  handles : c.Handles n
  absent : t.hasChild p (c.existing n) = false
  sprouts : t.Sprouts p v b t'
  copies : ∃ spec, Edit.Copies t v spec ∧ b.toSpec = { spec with name := some (c.prefixed n) }

/-- What the edit makes of a tree: a node that is covered is left alone, and otherwise a branch
grows, unless there is nothing to copy from. -/
theorem yields_edit (c : Cover) (ht : t.Linked) (hn : t.get? v = some n) (hp : t.Lists p v) :
    (c.edit v).Yields t
      (fun _ t' => t.hasChild p (c.existing n) = true ∧ t' = t ∨
        t.hasChild p (c.existing n) = false ∧ ∃ b spec, t.Sprouts p v b t' ∧ Edit.Copies t v spec ∧
          b.toSpec = { spec with name := some (c.prefixed n) })
      (fun _ t' => t' = t ∧ ∀ spec, ¬ Edit.Copies t v spec) := by
  have hparent : n.parent = some p := by
    obtain ⟨m, hm, hparent⟩ := ht.hangs_of_lists p v hp
    rw [hn] at hm
    cases hm
    exact hparent
  have hlive : t.get? v ≠ none := by simp [hn]
  cases c with
  | atRule name affix native =>
    show (Catalog.coverAtRule affix v).Yields t _ _
    unfold Catalog.coverAtRule
    rw [yields_bind, Edit.yields_node]
    refine ⟨fun m hm => ?_, fun hdead => absurd hdead hlive⟩
    obtain rfl : n = m := Option.some.inj (hn.symm.trans hm)
    rw [hparent]
    dsimp only
    rw [yields_bind, yields_get]
    split
    · next hchild => exact Or.inl ⟨hchild, rfl⟩
    · next hchild =>
      rw [yields_bind]
      refine (Edit.yields_copyPrefixed_sprouts ht hn hp affix).mono ?_ fun _ _ h => h
      exact fun _ t' h => Or.inr ⟨Bool.eq_false_iff.mpr hchild, h⟩
  | declaration property affix native =>
    show (Catalog.coverDeclaration (affix ++ property) v).Yields t _ _
    unfold Catalog.coverDeclaration
    rw [yields_bind, Edit.yields_node]
    refine ⟨fun m hm => ?_, fun hdead => absurd hdead hlive⟩
    obtain rfl : n = m := Option.some.inj (hn.symm.trans hm)
    rw [hparent]
    dsimp only
    rw [yields_bind, yields_get]
    split
    · next hchild => exact Or.inl ⟨hchild, rfl⟩
    · next hchild =>
      rw [yields_bind]
      refine (Edit.yields_copyBefore_sprouts ht hn hp).mono ?_ fun _ _ h => h
      rintro _ t' ⟨b, spec, rfl, hsprouts, hcopies, hspec⟩
      show (Edit.setName b.id (affix ++ property)).Yields t' _ _
      unfold Edit.setName Edit.change
      rw [yields_bind, Edit.yields_node]
      refine ⟨fun _ _ => ?_, fun hdead => absurd hdead (by simp [hsprouts.shows.get?])⟩
      refine Or.inr ⟨Bool.eq_false_iff.mpr hchild, _, spec, hsprouts.rename ht _, hcopies, ?_⟩
      rw [Branch.toSpec_rename, hspec]
      rfl

end Cover

/-! ## Children that answer a query -/

omit [Data] in
theorem Pattern.accepts_ofText_iff {text : String} {found : Option String} :
    (ofText text).accepts found = true ↔ text = "" ∨ found = some text := by
  unfold ofText
  split
  · next h => simp [h]
  · next h => cases found <;> simp [accepts, h]

omit [Data] in
theorem Pattern.accepts_ofKind_iff {kind kind' : Kind} :
    (ofKind kind).accepts (some kind'.word) = true ↔ kind' = kind := by
  rw [ofKind, accepts_exact_some, decide_eq_true_iff]
  cases kind <;> cases kind' <;> decide

theorem Query.accepts_iff {q : Query} : q.accepts n = true ↔
    q.kind.accepts (some n.kind.word) = true ∧ q.name.accepts n.name = true ∧
      q.value.accepts n.value = true ∧ q.vendor.accepts n.vendor = true := by
  simp only [accepts, Bool.and_eq_true, and_assoc]

theorem Tree.hasChild_iff {q : Query} : t.hasChild p q = true ↔
    ∃ x m, t.Lists p x ∧ t.get? x = some m ∧ q.accepts m = true := by
  unfold hasChild answers Tree.Lists
  cases hp : t.get? p with
  | none => simp
  | some np =>
    simp only [Option.map_some, Option.getD_some, List.any_eq_true, Option.any_eq_true,
      Option.some.injEq, exists_eq_left']
    constructor
    · rintro ⟨x, hx, m, hm, hq⟩
      exact ⟨x, m, hx, hm, hq⟩
    · rintro ⟨x, m, hx, hm, hq⟩
      exact ⟨x, hx, m, hm, hq⟩

/-- A node that keeps its attributes answers what it answered. -/
theorem Tree.Retains.exists_accepts {q : Query} (h : Retains t t') (hm : t.get? v = some m)
    (hq : q.accepts m = true) : ∃ m', t'.get? v = some m' ∧ q.accepts m' = true := by
  obtain ⟨m', hm', halone⟩ := h.get? hm
  have hsame : q.accepts m'.alone = q.accepts m.alone := by rw [halone]
  exact ⟨m', hm', hsame.trans hq⟩

theorem Tree.Sprouts.hasChild {b : Branch} {q : Handle} {query : Query} (ht : t.Linked)
    (h : t.Sprouts p v b t') (hq : t.hasChild q query = true) : t'.hasChild q query = true := by
  obtain ⟨x, m, hl, hm, haccepts⟩ := hasChild_iff.mp hq
  obtain ⟨m', hm', haccepts'⟩ := (h.retains ht).exists_accepts hm haccepts
  exact hasChild_iff.mpr ⟨x, m', (h.lists_iff hl.live).mpr (Or.inl hl), hm', haccepts'⟩

/-! ## Nodes that are covered -/

namespace Cover

variable {c : Cover} {cs ds : List Cover} {b d : Branch}

/-- A root needs no cover. -/
theorem Handles.ne_root (hroot : t.Rooted) (hv : t.get? v = some n) (h : c.Handles n) :
    v ≠ t.root := by
  rintro rfl
  obtain ⟨r, hr, hkind⟩ := hroot
  obtain rfl : n = r := Option.some.inj (hv.symm.trans hr)
  have hroot : c.kind = .root := h.1.symm.trans hkind
  cases c <;> exact absurd hroot (by simp [kind])

/-- The copy of a node answers the query for it. -/
theorem accepts_existing (hkind : n.kind = c.kind) (hm : m.kind = n.kind)
    (hname : m.name = some (c.prefixed n)) (hvalue : m.value = n.value) :
    (c.existing n).accepts m = true := by
  have hword := Pattern.accepts_ofKind_iff.mpr (hm.trans hkind)
  cases c with
  | atRule name affix native =>
    have hsame : (Pattern.ofText (n.value.getD "")).accepts m.value = true := by
      rw [hvalue, Pattern.accepts_ofText_iff]
      cases n.value <;> simp
    exact Query.accepts_iff.mpr ⟨hword, Pattern.accepts_ofText_iff.mpr (Or.inr hname), hsame, rfl⟩
  | declaration property affix native =>
    exact Query.accepts_iff.mpr ⟨hword, Pattern.accepts_ofText_iff.mpr (Or.inr hname), rfl, rfl⟩

/-- What answers the query is of the kind and has the name of the copy. -/
theorem kind_name_of_accepts (h : (c.existing n).accepts m = true) :
    m.kind = c.kind ∧ (c.prefixed n = "" ∨ m.name = some (c.prefixed n)) := by
  cases c with
  | atRule name affix native =>
    obtain ⟨hkind, hname, -⟩ := Query.accepts_iff.mp h
    exact ⟨Pattern.accepts_ofKind_iff.mp hkind, Pattern.accepts_ofText_iff.mp hname⟩
  | declaration property affix native =>
    obtain ⟨hkind, hname, -⟩ := Query.accepts_iff.mp h
    exact ⟨Pattern.accepts_ofKind_iff.mp hkind, Pattern.accepts_ofText_iff.mp hname⟩

/-- An at-rule that answers the query has the prelude of the original, unless that is empty. -/
theorem value_of_accepts {name affix text : String} {native : NativeMap}
    (h : ((atRule name affix native).existing n).accepts m = true) (hvalue : n.value = some text)
    (htext : text ≠ "") : m.value = some text := by
  obtain ⟨-, -, hm, -⟩ := Query.accepts_iff.mp h
  have hm' : (Pattern.ofText (n.value.getD "")).accepts m.value = true := hm
  rw [hvalue, Option.getD_some, Pattern.accepts_ofText_iff] at hm'
  exact hm'.resolve_left htext

/-- The parent of a node has the copy that the cover is for, if the node is plain and the cover has
a handler for it. -/
def Settled (c : Cover) (t : Tree) (v : Handle) : Prop :=
  ∀ d p, t.Shows d → d.id = v → d.toSpec.Plain → c.Handles d.node → d.node.parent = some p →
    t.hasChild p (c.existing d.node) = true

theorem Settled.sprouts (ht : t.Linked) (hc : c.Settled t v) (h : t.Sprouts p v b t') :
    c.Settled t' v := by
  intro d q hd hid hplain hhandles hparent
  obtain ⟨n, hn⟩ := (ht.hangs_of_lists p v h.lists_self).live
  obtain ⟨d', -, hid', hd'⟩ := ht.exists_branch? hn
  obtain rfl : d' = d := (h.shows_self ht hd' hid').unique hd (hid'.trans hid.symm)
  exact h.hasChild ht (hc d' q hd' hid hplain hhandles hparent)

theorem Grows.settled (ht : t.Linked) (h : c.Grows t v n p b t') : c.Settled t' v := by
  intro d q hd hid hplain hhandles hparent
  obtain ⟨d', -, hid', hd'⟩ := ht.exists_branch? h.node
  obtain rfl : d' = d := (h.sprouts.shows_self ht hd' hid').unique hd (hid'.trans hid.symm)
  subst hid
  obtain ⟨spec, hcopies, hspec⟩ := h.copies
  obtain rfl := (copies_iff_of_plain ht hd' hplain).mp hcopies
  obtain rfl : n = d'.node := Option.some.inj (h.node.symm.trans hd'.get?)
  have hqp : q = p := by
    refine Hangs.unique ?_ (ht.hangs_of_lists p d'.id h.sprouts.lists_self)
    exact ⟨d'.node, hd'.get?, hparent⟩
  rw [b.toSpec_eq, d'.toSpec_eq] at hspec
  obtain ⟨hkind, hname, hvalue, -, -⟩ := Spec.mk.inj hspec
  rw [hqp]
  refine hasChild_iff.mpr ⟨b.id, b.node, ?_, h.sprouts.shows.get?,
    accepts_existing hhandles.1 hkind hname hvalue⟩
  exact (h.sprouts.lists_iff h.sprouts.lists_self.live).mpr (Or.inr ⟨rfl, rfl⟩)

theorem settled_of_not_handles (hn : t.get? v = some n) (h : ¬ c.Handles n) : c.Settled t v := by
  rintro d q hd rfl - hhandles -
  obtain rfl : n = d.node := Option.some.inj (hn.symm.trans hd.get?)
  exact absurd hhandles h

theorem settled_of_hasChild (ht : t.Linked) (hn : t.get? v = some n) (hp : t.Lists p v)
    (h : t.hasChild p (c.existing n) = true) : c.Settled t v := by
  rintro d q hd rfl - - hparent
  obtain rfl : n = d.node := Option.some.inj (hn.symm.trans hd.get?)
  have hqp : q = p := Hangs.unique ⟨d.node, hn, hparent⟩ (ht.hangs_of_lists p d.id hp)
  rwa [hqp]

/-- One of several covers lets a branch grow before a node. -/
def Buds (cs : List Cover) (v : Handle) (t t' : Tree) : Prop :=
  ∃ c ∈ cs, ∃ n p b, c.Grows t v n p b t'

/-- What is kept each time that a branch is put before a node is kept all along. -/
theorem buds_induction {P : Tree → Prop} (ht : t.Linked) (h : ReflTransGen (Buds cs v) t t')
    (hP : P t) (hstep : ∀ u u' p b, u.Linked → u.Sprouts p v b u' → P u → P u') :
    t'.Linked ∧ P t' := by
  induction h with
  | refl => exact ⟨ht, hP⟩
  | tail _ hbuds ih =>
    obtain ⟨c, -, n, p, b, hgrows⟩ := hbuds
    exact ⟨hgrows.sprouts.steps.linked ih.1, hstep _ _ p b ih.1 hgrows.sprouts ih.2⟩

section Buds

variable (ht : t.Linked) (h : ReflTransGen (Buds cs v) t t')

include ht h

theorem buds_linked : t'.Linked :=
  (buds_induction (P := fun _ => True) ht h trivial fun _ _ _ _ _ _ _ => trivial).1

/-- The node itself is left as it is. -/
theorem buds_get? (hn : t.get? v = some n) : t'.get? v = some n :=
  (buds_induction ht h hn fun _ _ _ _ hu hs hn => hs.frame v n hn (hs.ne hu)).2

theorem buds_lists (hp : t.Lists p v) : t'.Lists p v :=
  (buds_induction (P := fun u => u.Lists p v) ht h hp fun _ _ _ _ _ hs hp =>
    (hs.lists_iff hp.live).mpr (Or.inl hp)).2

theorem buds_shows (hd : t.Shows d) (hid : d.id = v) : t'.Shows d :=
  (buds_induction ht h hd fun _ _ _ _ hu hs hd => hs.shows_self hu hd hid).2

theorem buds_settled (hc : c.Settled t v) : c.Settled t' v :=
  (buds_induction (P := fun u => c.Settled u v) ht h hc fun _ _ _ _ hu hs hc => hc.sprouts hu hs).2

end Buds

/-- Branches have grown before a node until every cover is settled. -/
structure Tends (cs : List Cover) (v : Handle) (t t' : Tree) : Prop where
  buds : ReflTransGen (Buds cs v) t t'
  settled : ∀ c ∈ cs, c.Settled t' v

theorem buds_mono (hsub : cs ⊆ ds) (h : ReflTransGen (Buds cs v) t t') :
    ReflTransGen (Buds ds v) t t' := by
  refine ReflTransGen.mono ?_ t t' h
  rintro u u' ⟨c, hc, hgrows⟩
  exact ⟨c, hsub hc, hgrows⟩

theorem Tends.nil (v : Handle) (t : Tree) : Tends [] v t t :=
  ⟨.refl, by simp⟩

theorem Tends.append {t'' : Tree} (ht : t.Linked) (h : Tends cs v t t') (h' : Tends ds v t' t'') :
    Tends (cs ++ ds) v t t'' where
  buds := (buds_mono (List.subset_append_left cs ds) h.buds).trans
    (buds_mono (List.subset_append_right cs ds) h'.buds)
  settled := by
    intro c hc
    rcases List.mem_append.mp hc with hc | hc
    · exact buds_settled (buds_linked ht h.buds) h'.buds (h.settled c hc)
    · exact h'.settled c hc

/-! ## Modules of covers -/

/-- The covers that are needed for the browsers that are targeted. -/
def needed (support : Option Targets) (cs : List Cover) : List Cover :=
  cs.filter fun c => gateOpen support (some c.native)

/-- A node that one of several covers has a handler for. -/
def Handled (cs : List Cover) (t : Tree) (v : Handle) : Prop :=
  ∃ c ∈ cs, ∃ n, t.get? v = some n ∧ c.Handles n

instance (cs : List Cover) (t : Tree) (v : Handle) : Decidable (Handled cs t v) :=
  decidable_of_iff (∃ n ∈ t.get? v, ∃ c ∈ cs, c.Handles n) <| by
    constructor
    · rintro ⟨n, hn, c, hc, h⟩
      exact ⟨c, hc, n, hn, h⟩
    · rintro ⟨c, hc, n, hn, h⟩
      exact ⟨n, hn, c, hc, h⟩

/-- An action that tends a node, or fails because the node has to be copied and cannot be. -/
def Tending (cs : List Cover) (v : Handle) (x : Action (Workspace ι) Unit) : Prop :=
  ∀ w : Workspace ι, w.tree.Linked → (∃ n, w.tree.get? v = some n) →
    (Handled cs w.tree v → ∃ p, w.tree.Lists p v) →
    x.Yields w (fun _ w' => Tends cs v w.tree w'.tree) fun _ w' =>
      ReflTransGen (Buds cs v) w.tree w'.tree ∧ Handled cs w'.tree v ∧
        ∀ spec, ¬ Edit.Copies w'.tree v spec

theorem Handled.mono (hsub : cs ⊆ ds) (h : Handled cs t v) : Handled ds t v := by
  obtain ⟨c, hc, hn⟩ := h
  exact ⟨c, hsub hc, hn⟩

theorem Tending.pure (v : Handle) : Tending [] v (Pure.pure () : Action (Workspace ι) Unit) :=
  fun w _ _ _ => Tends.nil v w.tree

theorem Tending.bind {x y : Action (Workspace ι) Unit} (hx : Tending cs v x)
    (hy : Tending ds v y) : Tending (cs ++ ds) v (x >>= fun _ => y) := by
  rintro w hw ⟨n, hn⟩ hp
  have hleft := List.subset_append_left cs ds
  have hright := List.subset_append_right cs ds
  rw [yields_bind]
  refine (hx w hw ⟨n, hn⟩ fun h => hp (h.mono hleft)).mono ?_ ?_
  · intro _ w' h
    have hn' := buds_get? hw h.buds hn
    refine (hy w' (buds_linked hw h.buds) ⟨n, hn'⟩ ?_).mono ?_ ?_
    · rintro ⟨c, hc, m, hm, hhandles⟩
      obtain rfl : n = m := Option.some.inj (hn'.symm.trans hm)
      obtain ⟨p, hp⟩ := hp ⟨c, hright hc, n, hn, hhandles⟩
      exact ⟨p, buds_lists hw h.buds hp⟩
    · exact fun _ w'' h' => h.append hw h'
    · rintro _ w'' ⟨hbuds, hhandled, hno⟩
      exact ⟨(buds_mono hleft h.buds).trans (buds_mono hright hbuds), hhandled.mono hright, hno⟩
  · rintro _ w' ⟨hbuds, hhandled, hno⟩
    exact ⟨buds_mono hleft hbuds, hhandled.mono hleft, hno⟩

/-- The plugin of a cover, run on a node. -/
theorem tending_run (c : Cover) (support : Option Targets) (v : Handle) :
    Tending (needed support [c]) v (do
      match (← Action.get).tree.get? v with
      | none => pure ()
      | some node => c.plugin.run support .after v node : Action (Workspace ι) Unit) := by
  rintro w hw ⟨n, hn⟩ hp
  obtain ⟨title, hplugin⟩ : ∃ title, (c.plugin : Plugin ι) = _ := c.plugin_eq
  rw [yields_bind, yields_get, hn]
  dsimp only
  rw [hplugin, yields_run_register]
  split
  · next hrun =>
    obtain ⟨-, hgate, hhandles⟩ := hrun
    have hneeded : needed support [c] = [c] := List.filter_cons_of_pos hgate
    rw [hneeded] at hp ⊢
    have hhandled : Handled [c] w.tree v := ⟨c, List.mem_singleton_self c, n, hn, hhandles⟩
    obtain ⟨p, hlists⟩ := hp hhandled
    rw [Edit.yields_onWorkspace]
    refine (c.yields_edit hw hn hlists).mono ?_ ?_
    · rintro _ t' (⟨hchild, rfl⟩ | ⟨habsent, b, spec, hsprouts, hcopies, hspec⟩)
      · refine ⟨.refl, fun c' hc' => ?_⟩
        obtain rfl := List.mem_singleton.mp hc'
        exact settled_of_hasChild hw hn hlists hchild
      · have hgrows : c.Grows w.tree v n p b t' :=
          ⟨hn, hhandles, habsent, hsprouts, spec, hcopies, hspec⟩
        refine ⟨.single ⟨c, List.mem_singleton_self c, n, p, b, hgrows⟩, fun c' hc' => ?_⟩
        obtain rfl := List.mem_singleton.mp hc'
        exact hgrows.settled hw
    · rintro _ t' ⟨rfl, hno⟩
      exact ⟨.refl, hhandled, hno⟩
  · next hrun =>
    refine ⟨.refl, fun c' hc' => ?_⟩
    obtain ⟨hc', hgate⟩ := List.mem_filter.mp hc'
    obtain rfl := List.mem_singleton.mp hc'
    exact settled_of_not_handles hn fun hhandles => hrun ⟨rfl, hgate, hhandles⟩

/-- A module of covers, run on a node. -/
theorem tending_module (support : Option Targets) (v : Handle) (cs : List Cover) :
    Tending (needed support cs) v
      (PluginModule.run support .after v (cs.map plugin) : Action (Workspace ι) Unit) := by
  induction cs with
  | nil => exact Tending.pure v
  | cons c cs ih =>
    have hneeded : needed support (c :: cs) = needed support [c] ++ needed support cs :=
      List.filter_append [c] cs
    rintro w hw ⟨n, hn⟩ hp
    have hboth := (c.tending_run support v).bind ih w hw ⟨n, hn⟩ (hneeded ▸ hp)
    rw [yields_bind, yields_bind, yields_get, hn] at hboth
    rw [List.map_cons, PluginModule.run, yields_bind, yields_get, hn, hneeded]
    dsimp only at hboth ⊢
    rwa [yields_bind]

/-- Modules of covers, run on a node one after the other. -/
theorem tending_runModules (support : Option Targets) (v : Handle) (ms : List (List Cover)) :
    Tending (needed support ms.flatten) v
      (runModules support .after v (ms.map (·.map plugin)) : Action (Workspace ι) Unit) := by
  unfold runModules
  induction ms with
  | nil => exact Tending.pure v
  | cons cs ms ih =>
    have hneeded : needed support (cs :: ms).flatten =
        needed support cs ++ needed support ms.flatten := List.filter_append cs ms.flatten
    rw [hneeded]
    exact (tending_module support v cs).bind ih

section Before

variable {support : Option Targets} {w : Workspace ι} {Q : Unit → Workspace ι → Prop}
  {E : Fault → Workspace ι → Prop}

theorem yields_module_before (cs : List Cover) :
    (PluginModule.run support .before v (cs.map plugin)).Yields w Q E ↔ Q () w := by
  induction cs with
  | nil => exact yields_pure ..
  | cons c cs ih =>
    rw [List.map_cons, PluginModule.run, yields_bind, yields_get]
    cases w.tree.get? v with
    | none => exact yields_pure ..
    | some n =>
      obtain ⟨title, hplugin⟩ : ∃ title, (c.plugin : Plugin ι) = _ := c.plugin_eq
      dsimp only
      rw [yields_bind, hplugin, yields_run_register, if_neg fun h => Phase.noConfusion h.1, ih]

/-- Covers do nothing in the earlier phase. -/
theorem yields_runModules_before (ms : List (List Cover)) :
    (runModules support .before v (ms.map (·.map plugin))).Yields w Q E ↔ Q () w := by
  unfold runModules
  induction ms with
  | nil => exact yields_pure ..
  | cons cs ms ih =>
    show (PluginModule.run support .before v (cs.map plugin) >>= fun _ => _).Yields w Q E ↔ _
    rw [yields_bind, yields_module_before]
    exact ih

end Before

end Cover

end StyleTree
