import StyleTree.Proofs.Catalog.Sown
import StyleTree.Proofs.Tree.Reach

/-!
# Copies right before their originals

A cover of declarations is meant to put a copy before every declaration of its property.  But its
handler asks whether the parent has a child with the name of the copy, and not whether that child is
the copy of the declaration at hand.  So of several declarations of one property in one list only
the first gets a copy: when the walk comes to the others, the copy of the first one is there.

* `Declares`, `Echoes`: a declaration of a name, and one with the value of another node besides.
* `Preceded`, `Follows`: what stands right before a node, and anywhere before it.
* `Stage.Tracked`: what holds at every stage of a walk with one cover, over a tree without vendors
  (`Unprefixed`).  Every old list is as it was (`Joined`), or has one copy in it, right before the
  first declaration of the property (`Copied`).  The first one it is because of the order of the
  walk: what is listed before a node that is being visited is finalized, and what is finalized has a
  copy in its list.
* `Move.tracked`, `Completes.tracked`: each move keeps that, and so does a whole walk.
* `transition_preceded_iff`: hence a transition is preceded by its copy exactly if no other
  transition stood before it.
* `transition_unpreceded`: of two transitions in one rule, the second is not.
-/

namespace StyleTree

open StyleTree.Tree Relation

section General

variable [Data]

namespace Tree

variable {t t' t'' : Tree} {x y p : Handle} {n : Node} {name : String}
  {l l' left right : List Handle} {c : Cover}

/-! ## Declarations and what stands before them -/

/-- The node is a declaration of a name. -/
def Declares (t : Tree) (x : Handle) (name : String) : Prop :=
  ∃ n, t.get? x = some n ∧ n.kind = .declaration ∧ n.name = some name

/-- The first node is a declaration of a name with the value of the second one. -/
def Echoes (t : Tree) (y x : Handle) (name : String) : Prop :=
  ∃ m n, t.get? y = some m ∧ t.get? x = some n ∧ m.kind = .declaration ∧ m.name = some name ∧
    m.value = n.value

/-- Right before the node, in the list that it is in, stands a declaration of a name with its
value. -/
def Preceded (t : Tree) (x : Handle) (name : String) : Prop :=
  ∃ p n left y right, t.get? p = some n ∧ n.children = left ++ y :: x :: right ∧ t.Echoes y x name

/-- Somewhere before the node, in the list that it is in, stands a declaration of a name. -/
def Follows (t : Tree) (x : Handle) (name : String) : Prop :=
  ∃ p n left right z, t.get? p = some n ∧ n.children = left ++ x :: right ∧ z ∈ left ∧
    t.Declares z name

theorem Declares.live (h : t.Declares x name) : ∃ n, t.get? x = some n := by
  obtain ⟨n, hn, -⟩ := h
  exact ⟨n, hn⟩

theorem Echoes.declares (h : t.Echoes y x name) : t.Declares y name := by
  obtain ⟨m, n, hm, -, hkind, hname, -⟩ := h
  exact ⟨m, hm, hkind, hname⟩

/-- What a node declares is a matter of its attributes. -/
theorem Retains.declares_iff (h : Retains t t') (hx : ∃ n, t.get? x = some n) :
    t'.Declares x name ↔ t.Declares x name := by
  obtain ⟨n, hn⟩ := hx
  obtain ⟨n', hn', halone⟩ := h.get? hn
  obtain ⟨hkind, hname, -⟩ := Node.mk.inj halone
  unfold Declares
  simp only [hn, hn', Option.some.injEq, exists_eq_left', hkind, hname]

theorem Retains.echoes (h : Retains t t') (he : t.Echoes y x name) : t'.Echoes y x name := by
  obtain ⟨m, n, hm, hn, hkind, hname, hvalue⟩ := he
  obtain ⟨m', hm', halone⟩ := h.get? hm
  obtain ⟨n', hn', halone'⟩ := h.get? hn
  obtain ⟨hkind', hname', -, hvalue', -⟩ := Node.mk.inj halone
  obtain ⟨-, -, -, hvalue'', -⟩ := Node.mk.inj halone'
  exact ⟨m', n', hm', hn', hkind'.trans hkind, hname'.trans hname,
    hvalue'.trans (hvalue.trans hvalue''.symm)⟩

omit [Data] in
/-- Of two entries of a list without repetitions, the first stands before the place of the
second. -/
theorem mem_of_pair_sublist (hnodup : (left ++ x :: right).Nodup)
    (h : [y, x].Sublist (left ++ x :: right)) : y ∈ left := by
  obtain ⟨-, hleft, hright, -⟩ := Edit.cut_of_nodup hnodup
  obtain ⟨l₁, l₂, hsplit, hl₁, hl₂⟩ := List.sublist_append_iff.mp h
  match l₁ with
  | [] =>
    -- then both would stand at or behind the place of the second
    rw [List.nil_append] at hsplit
    rw [← hsplit] at hl₂
    have hx : x ∈ right := by
      cases hl₂ with
      | cons _ hl₂ => exact hl₂.subset (by simp)
      | cons_cons _ hl₂ => exact List.singleton_sublist.mp hl₂
    exact absurd hx hright
  | [a] =>
    obtain ⟨rfl, -⟩ := List.cons.inj hsplit
    exact List.singleton_sublist.mp hl₁
  | a :: a' :: l₁ =>
    obtain ⟨-, hrest⟩ := List.cons.inj hsplit
    obtain ⟨rfl, -⟩ := List.cons.inj hrest
    exact absurd (hl₁.subset (by simp)) hleft

/-- Something is listed by every node above the end of a way. -/
theorem Trail.exists_lists {rest : List Handle} (h : t.Trail (x :: rest)) (hy : y ∈ rest) :
    ∃ z, t.Lists y z := by
  generalize hl : x :: rest = l at h
  induction h generalizing x rest with
  | nil => exact absurd hl (by simp)
  | root =>
    obtain ⟨-, rfl⟩ := List.cons.inj hl
    exact absurd hy (by simp)
  | @into c p rest' _ hc ih =>
    obtain ⟨-, rfl⟩ := List.cons.inj hl
    rcases List.mem_cons.mp hy with rfl | hy
    · exact ⟨c, hc⟩
    · exact ih hy rfl

/-! ## Trees without vendors -/

/-- A linked tree with a document at its root, in which all nodes are simple and carry no
vendors. -/
structure Unprefixed (t : Tree) : Prop where
  linked : t.Linked
  rooted : t.Rooted
  labelled : t.Labelled
  simple : t.Simple
  vendor : ∀ x n, t.get? x = some n → n.vendor = none

theorem Sown.unprefixed (h : t.Sown) (hvendor : ∀ x n, t.get? x = some n → n.vendor = none) :
    t.Unprefixed :=
  ⟨h.reachable.linked, h.reachable.rooted, h.reachable.labelled, h.simple, hvendor⟩

theorem Unprefixed.not_declares (h : t.Unprefixed) (hname : vendorOfName name ≠ none) :
    ¬ t.Declares x name := by
  rintro ⟨n, hn, -, hn'⟩
  have hvendor : n.vendor = n.name.bind vendorOfName := h.labelled x n hn
  rw [h.vendor x n hn, hn', Option.bind_some] at hvendor
  exact hname hvendor.symm

/-- One list comes of another by putting a copy right before `v`, the first declaration that is
covered. -/
def Copied (t t' : Tree) (c : Cover) (v : Handle) (l l' : List Handle) : Prop :=
  ∃ left b right, l = left ++ v :: right ∧ l' = left ++ b :: v :: right ∧
    (∀ z ∈ left, ¬ t.Declares z c.key) ∧ t.Declares v c.key ∧ t'.Echoes b v c.title

/-- One list comes of another by a walk with a cover: it is the same, or has one copy in it. -/
def Joined (t t' : Tree) (c : Cover) (l l' : List Handle) : Prop :=
  l' = l ∨ ∃ v, Copied t t' c v l l'

theorem Joined.mono (h : Joined t t' c l l') (hr : Retains t' t'') : Joined t t'' c l l' := by
  refine h.imp_right ?_
  rintro ⟨v, left, b, right, hl, hl', hleft, hv, hb⟩
  exact ⟨v, left, b, right, hl, hl', hleft, hv, hr.echoes hb⟩

theorem Joined.sublist (h : Joined t t' c l l') : l.Sublist l' := by
  rcases h with rfl | ⟨v, left, b, right, rfl, rfl, -⟩
  · exact List.Sublist.refl _
  · exact (List.sublist_cons_self b (v :: right)).append_left left

theorem Joined.eq_nil (h : Joined t t' c [] l) : l = [] := by
  rcases h with rfl | ⟨v, left, b, right, hl, -⟩
  · rfl
  · exact absurd hl (by simp)

/-- The list of `p` has come to have a copy in it, right before `v`. -/
def CopiedIn (t t' : Tree) (c : Cover) (p v : Handle) : Prop :=
  ∃ n n', t.get? p = some n ∧ t'.get? p = some n' ∧ Copied t t' c v n.children n'.children

/-- Only the node behind the copy is preceded by one, because nothing else has the name of a
copy. -/
theorem CopiedIn.preceded_iff {v : Handle} (h : CopiedIn t t' c p v)
    (hc : vendorOfName c.title ≠ none) (ht : t.Unprefixed) (ht' : t'.Linked) (hr : Retains t t')
    (hx : t.Lists p x) : t'.Preceded x c.title ↔ x = v := by
  obtain ⟨n, n', hn, hn', left, b, right, hl, hl', -, -, hb⟩ := h
  have hmem : ∀ y, y ∈ n'.children ↔ y = b ∨ y ∈ n.children := by
    intro y
    rw [hl, hl']
    simp only [List.mem_append, List.mem_cons]
    tauto
  constructor
  · rintro ⟨q, m, before, y, behind, hm, hlist, hecho⟩
    obtain ⟨k, hk, hxk⟩ := hx
    obtain rfl : n = k := Option.some.inj (hn.symm.trans hk)
    obtain rfl : p = q := (ht'.hangs_of_lists p x ⟨n', hn', (hmem x).mpr (Or.inr hxk)⟩).unique
      (ht'.hangs_of_lists q x ⟨m, hm, by simp [hlist]⟩)
    obtain rfl : n' = m := Option.some.inj (hn'.symm.trans hm)
    obtain rfl : y = b := by
      refine ((hmem y).mp (by simp [hlist])).resolve_right fun hy => ?_
      have hold := (ht.linked.hangs_of_lists p y ⟨n, hn, hy⟩).live
      exact ht.not_declares hc ((hr.declares_iff hold).mp hecho.declares)
    have hnodup := ht'.nodup p n' hn'
    rw [hl'] at hnodup hlist
    obtain ⟨-, hyleft, hyright, -⟩ := Edit.cut_of_nodup hnodup
    obtain ⟨-, -, hrest⟩ := (List.append_cons_inj_of_notMem hyleft hyright).mp hlist
    exact (List.cons.inj hrest).1.symm
  · rintro rfl
    exact ⟨p, n', left, b, right, hn', hl', hb⟩

/-- Of the declarations that are covered, all but that node stand behind another one. -/
theorem CopiedIn.follows_iff {v : Handle} (h : CopiedIn t t' c p v) (ht : t.Linked)
    (hx : t.Lists p x) (hd : t.Declares x c.key) : t.Follows x c.key ↔ x ≠ v := by
  obtain ⟨n, n', hn, -, left, b, right, hl, -, hleft, hv, -⟩ := h
  constructor
  · rintro ⟨q, m, before, behind, z, hm, hlist, hz, hz'⟩ rfl
    obtain rfl : p = q := (ht.hangs_of_lists p x hx).unique
      (ht.hangs_of_lists q x ⟨m, hm, by simp [hlist]⟩)
    obtain rfl : n = m := Option.some.inj (hn.symm.trans hm)
    have hnodup := ht.nodup p n hn
    rw [hl] at hnodup hlist
    obtain ⟨-, hxleft, hxright, -⟩ := Edit.cut_of_nodup hnodup
    obtain ⟨rfl, -, -⟩ := (List.append_cons_inj_of_notMem hxleft hxright).mp hlist
    exact hleft z hz hz'
  · intro hne
    obtain ⟨k, hk, hmem⟩ := hx
    obtain rfl : n = k := Option.some.inj (hn.symm.trans hk)
    rw [hl, List.mem_append, List.mem_cons] at hmem
    rcases hmem with hmem | hmem | hmem
    · exact absurd hd (hleft x hmem)
    · exact absurd hmem hne
    · obtain ⟨between, behind, rfl⟩ := List.append_of_mem hmem
      exact ⟨p, n, left ++ v :: between, behind, v, hn, by simp [hl], by simp, hv⟩

end Tree

/-! ## Covers of declarations -/

namespace Cover

variable {t : Tree} {p v : Handle} {n m : Node} {c : Cover}

/-- A tame cover of declarations whose originals can be read back. -/
structure Direct (c : Cover) : Prop extends Tame c where
  kind : c.kind = .declaration
  original : ∀ text : String, Css.IsPlain text.toList →
    Spec.Plain ⟨.declaration, some c.key, some text, false, []⟩

/-- What such a cover takes for a copy is any declaration of the name. -/
theorem Direct.hasChild_iff (hc : c.Direct) :
    t.hasChild p (c.existing n) = true ↔ ∃ y, t.Lists p y ∧ t.Declares y c.title := by
  have hquery : ∀ m : Node, (c.existing n).accepts m = true ↔
      m.kind = .declaration ∧ m.name = some c.title := by
    have hkind := hc.kind
    have hvendor := hc.vendor
    intro m
    cases c with
    | atRule => exact absurd hkind (by simp [Cover.kind])
    | declaration property affix native =>
      have htitle : affix ++ property ≠ "" := by
        intro he
        exact hvendor ((congrArg vendorOfName he).trans (by decide +kernel))
      rw [Query.accepts_iff]
      show (Pattern.ofKind .declaration).accepts _ = true ∧
        (Pattern.ofText (affix ++ property)).accepts _ =
        true ∧ true = true ∧ true = true ↔ _
      rw [Pattern.accepts_ofKind_iff, Pattern.accepts_ofText_iff]
      simp [htitle, title, Cover.affix, key]
  rw [Tree.hasChild_iff]
  constructor
  · rintro ⟨y, m, hl, hm, hq⟩
    exact ⟨y, hl, m, hm, (hquery m).mp hq⟩
  · rintro ⟨y, hl, m, hm, hq⟩
    exact ⟨y, m, hl, hm, (hquery m).mpr hq⟩

theorem Direct.handles (hc : c.Direct) (hkind : n.kind = .declaration)
    (hname : n.name = some c.key) : c.Handles n :=
  ⟨hkind.trans hc.kind.symm, Or.inl hname⟩

/-- Nodes without second names are found by their names. -/
theorem name_of_handles (h : c.Handles n) (hfamily : n.family = none) : n.name = some c.key := by
  rcases h.2 with hname | ⟨-, hkey⟩
  · exact hname
  · rw [hfamily] at hkey
    exact absurd hkey (by simp)

omit [Data] in
theorem Tame.title_ne_key (hc : c.Tame) : c.title ≠ c.key :=
  fun he => hc.vendor (he ▸ hc.key)

end Cover

/-! ## The stages of a walk -/

variable {t : Tree} {s s' : Stage} {c : Cover} {x p v : Handle} {n : Node}

/-- What holds at every stage of a walk with one cover, compared with the tree at the beginning.
Old nodes have their parents, and their lists have at most one copy in them.  New nodes are copies.
What was listed before a node that is being visited is finalized.  What is finalized and covered has
a copy in its list. -/
structure Stage.Tracked (t : Tree) (c : Cover) (s : Stage) : Prop where
  lists : ∀ p n, t.get? p = some n → ∃ n', s.tree.get? p = some n' ∧ n'.parent = n.parent ∧
    Joined t s.tree c n.children n'.children
  new : ∀ x n, s.tree.Beneath x s.tree.root → s.tree.get? x = some n → t.get? x = none →
    n.kind = .declaration ∧ n.name = some c.title ∧ n.family = none ∧ n.children = []
  ordered : ∀ x p rest n left right, x :: p :: rest <:+ s.path → t.get? p = some n →
    n.children = left ++ x :: right → ∀ z ∈ left, z ∈ s.finalized
  met : ∀ z ∈ s.finalized, ∀ p, t.Lists p z → t.Declares z c.key →
    ∃ y, s.tree.Lists p y ∧ s.tree.Declares y c.title

theorem Stage.tracked_start (t : Tree) (c : Cover) : (Stage.start t).Tracked t c where
  lists := fun p n hn => ⟨n, hn, rfl, Or.inl rfl⟩
  new := by
    intro x n _ hn hdead
    exact absurd (hn.symm.trans hdead) (by simp)
  ordered := by
    intro x p rest n left right hsuffix
    exact absurd (List.suffix_nil.mp hsuffix) (by simp)
  met := fun z hz => absurd hz Std.HashSet.not_mem_empty

namespace Stage.Tracked

/-- A node that lists something is old, because copies have no children. -/
theorem live_of_lists (h : s.Tracked t c) (hp : s.tree.Beneath p s.tree.root)
    (hl : s.tree.Lists p x) : ∃ n, t.get? p = some n := by
  obtain ⟨n, hn, hx⟩ := hl
  cases hold : t.get? p with
  | some m => exact ⟨m, rfl⟩
  | none =>
    obtain ⟨-, -, -, hnil⟩ := h.new p n hp hn hold
    rw [hnil] at hx
    exact absurd hx (by simp)

/-- Nothing has to go: the nodes above the one that comes next are old and carry no vendors. -/
theorem foreign_eq_false (h : s.Tracked t c) (ht : t.Unprefixed) (hs : s.Valid)
    (hr : Retains t s.tree) (hx : s.Opens x) : s.foreign x = false := by
  refine Bool.eq_false_iff.mpr fun hforeign => ?_
  obtain ⟨o, -, hcontext, -⟩ := isForeign_iff.mp hforeign
  obtain ⟨y, hy, hvendor⟩ := exists_of_contextOf_eq_some hcontext
  obtain ⟨z, hz⟩ := hx.trail.exists_lists hy
  obtain ⟨m, hm⟩ := h.live_of_lists (hs.trail.beneath_root hs.linked hy) hz
  rw [hr.vendorAt ⟨m, hm⟩, vendorAt_of_get? hm, ht.vendor y m hm] at hvendor
  exact absurd hvendor (by simp)

/-- What is covered is old, because copies are not copied. -/
theorem declares_of_handles (h : s.Tracked t c) (hc : c.Direct) (ht : t.Unprefixed)
    (hr : Retains t s.tree) (hx : s.tree.Beneath x s.tree.root) (hn : s.tree.get? x = some n)
    (hhandles : c.Handles n) : t.Declares x c.key := by
  cases hold : t.get? x with
  | none =>
    obtain ⟨-, hname, hfamily, -⟩ := h.new x n hx hn hold
    have he : c.title = c.key :=
      Option.some.inj (hname.symm.trans (Cover.name_of_handles hhandles hfamily))
    exact absurd he hc.title_ne_key
  | some m =>
    obtain ⟨hkind, hname, -, -, hfamily, -⟩ := Node.mk.inj (hr.alone x m n hold hn)
    have hname' := Cover.name_of_handles hhandles (hfamily.trans (ht.simple x m hold).family)
    exact ⟨m, hold, hkind.symm.trans (hhandles.1.trans hc.kind), hname.symm.trans hname'⟩

/-- What is covered is a leaf that can be read back. -/
theorem shows_of_handles (h : s.Tracked t c) (hc : c.Direct) (ht : t.Unprefixed)
    (hr : Retains t s.tree) (hx : s.tree.Beneath x s.tree.root) (hn : s.tree.get? x = some n)
    (hhandles : c.Handles n) :
    s.tree.Shows ⟨x, n, []⟩ ∧ n.bare.Plain ∧ n.name = some c.key := by
  obtain ⟨m, hm, hkind, hname⟩ := h.declares_of_handles hc ht hr hx hn hhandles
  obtain ⟨hblock, hnil, text, hvalue, hplain⟩ := (ht.simple x m hm).leaf hkind
  obtain ⟨n', hn', -, hjoined⟩ := h.lists x m hm
  obtain rfl : n = n' := Option.some.inj (hn.symm.trans hn')
  rw [hnil] at hjoined
  obtain ⟨hkind', hname', -, hvalue', -, hblock', -⟩ := Node.mk.inj (hr.alone x m n hm hn)
  refine ⟨.mk hn hjoined.eq_nil.symm (by simp), ?_, hname'.trans hname⟩
  have hbare : n.bare = ⟨.declaration, some c.key, some text, false, []⟩ := by
    rw [Node.bare, hkind', hname', hvalue', hblock', hkind, hname, hvalue, hblock]
  rw [hbare]
  exact hc.original text hplain

end Stage.Tracked

/-- The copy of a leaf that can be read back is a leaf with its value, under the name of the
copy. -/
theorem Cover.Grows.leaf {t' : Tree} {b : Branch} (ht : t.Linked) (h : c.Grows t v n p b t')
    (hshows : t.Shows ⟨v, n, []⟩) (hplain : n.bare.Plain) (hname : n.name = some c.key) :
    b.handles = [b.id] ∧ b.node.children = [] ∧ b.node.kind = n.kind ∧
      b.node.name = some c.title ∧ b.node.value = n.value := by
  obtain ⟨spec, hcopies, hspec⟩ := h.copies
  have hbare : (Branch.mk v n []).toSpec = n.bare := Branch.toSpec_mk v n []
  obtain rfl := (copies_iff_of_plain ht hshows (hbare ▸ hplain)).mp hcopies
  rw [hbare, Cover.prefixed_of_name hname] at hspec
  have hb := h.sprouts.shows
  obtain ⟨id, node, bs⟩ := b
  rw [Branch.toSpec_mk] at hspec
  obtain ⟨hkind, hname', hvalue, -, hnil⟩ := Spec.mk.inj hspec
  obtain rfl : bs = [] :=
    List.map_eq_nil_iff.mp (hnil.trans (by simp [Node.bare, Spec.tidied, Spec.tidyAll]))
  cases hb with
  | mk _ hchildren _ => exact ⟨Branch.handles_mk id node [], hchildren.symm, hkind, hname', hvalue⟩

/-! ## Moves -/

/-- The first open child is entered, so what is listed before it is finalized. -/
theorem Stage.Tracked.enter (h : s.Tracked t c) (hs : s.Valid) (hx : s.Opens x) :
    Stage.Tracked t c { s with path := x :: s.path } where
  lists := h.lists
  new := h.new
  met := h.met
  ordered := by
    intro y p rest n left right hsuffix hn hlist z hz
    rcases List.suffix_cons_iff.mp hsuffix with he | hsuffix
    · obtain ⟨rfl, hpath⟩ := List.cons.inj he
      obtain ⟨n', before, behind, hn', hlist', hbefore⟩ := hx.first p rest hpath.symm
      obtain ⟨m, hm, -, hjoined⟩ := h.lists p n hn
      obtain rfl : n' = m := Option.some.inj (hn'.symm.trans hm)
      have hpair : [z, y].Sublist n.children := by
        rw [hlist]
        exact (List.singleton_sublist.mpr hz).append (List.singleton_sublist.mpr (by simp))
      have hnodup := hs.linked.nodup p n' hn'
      have hsublist := hpair.trans hjoined.sublist
      rw [hlist'] at hnodup hsublist
      exact hbefore z (mem_of_pair_sublist hnodup hsublist)
    · exact h.ordered y p rest n left right hsuffix hn hlist z hz

/-- A copy grows in an old list that has none yet, and before the first declaration that is covered:
an earlier one would be finalized, and so would have a copy. -/
theorem Stage.Tracked.site_of_grows {rest : List Handle} {b : Branch} {t' : Tree}
    (h : s.Tracked t c) (hc : c.Direct) (hs : s.Valid) (hpath : s.path = v :: rest)
    (hgrows : c.Grows s.tree v n p b t') :
    ∃ np np' left right, t.get? p = some np ∧ s.tree.get? p = some np' ∧
      np.children = left ++ v :: right ∧
      t'.get? p = some { np' with children := left ++ b.id :: v :: right } ∧
      ∀ z ∈ left, ¬ t.Declares z c.key := by
  have hself := hgrows.sprouts.lists_self
  have htrail : s.tree.Trail (v :: rest) := hpath ▸ hs.trail
  have habsent : ¬ ∃ y, s.tree.Lists p y ∧ s.tree.Declares y c.title := by
    rw [← hc.hasChild_iff (n := n), hgrows.absent]
    simp
  -- the parent is the next node on the way up
  obtain ⟨rest', hrest⟩ : ∃ rest', rest = p :: rest' := by
    cases htrail with
    | root => exact absurd rfl (hgrows.handles.ne_root hs.rooted hgrows.node)
    | @into _ q rest' _ hl =>
      obtain rfl : p = q :=
        (hs.linked.hangs_of_lists p v hself).unique (hs.linked.hangs_of_lists q v hl)
      exact ⟨rest', rfl⟩
  have hp : s.tree.Beneath p s.tree.root := htrail.beneath_root hs.linked (by simp [hrest])
  obtain ⟨np, hnp⟩ := h.live_of_lists hp hself
  obtain ⟨np', left, right, hnp', hlist, hnp''⟩ := hgrows.sprouts.beside
  have hsame : np.children = np'.children := by
    obtain ⟨m, hm, -, hjoined⟩ := h.lists p np hnp
    obtain rfl : np' = m := Option.some.inj (hnp'.symm.trans hm)
    rcases hjoined with hsame | ⟨v, left, b, right, -, hl', -, -, hb⟩
    · exact hsame.symm
    · exact absurd ⟨b, ⟨np', hnp', by simp [hl']⟩, hb.declares⟩ habsent
  refine ⟨np, np', left, right, hnp, hnp', hsame.trans hlist, hnp'', fun z hz hdeclares => ?_⟩
  have hfinal : z ∈ s.finalized := by
    refine h.ordered v p rest' np left right ?_ hnp (hsame.trans hlist) z hz
    rw [hpath, hrest]
  exact habsent (h.met z hfinal p ⟨np, hnp, by simp [hsame, hlist, hz]⟩ hdeclares)

section Move

variable (hc : c.Direct) (ht : t.Unprefixed) (hs : s.Valid) (hr : Retains t s.tree)
  (h : s.Tracked t c)
include hc ht hs hr h

/-- When a node is left, its parent has a copy. -/
theorem Stage.Tracked.leave {rest : List Handle} (hpath : s.path = v :: rest)
    (hsettled : c.Settled s.tree v) :
    Stage.Tracked t c { s with path := rest, finalized := s.finalized.insert v } where
  lists := h.lists
  new := h.new
  ordered := by
    intro y p rest' n left right hsuffix hn hlist z hz
    refine Std.HashSet.mem_insert.mpr (Or.inr ?_)
    refine h.ordered y p rest' n left right ?_ hn hlist z hz
    rw [hpath]
    exact hsuffix.trans (List.suffix_cons v rest)
  met := by
    intro z hz p hl hdeclares
    rcases Std.HashSet.mem_insert.mp hz with he | hz
    · obtain rfl := eq_of_beq he
      obtain ⟨n, hn, hkind, hname⟩ := hdeclares
      obtain ⟨n', hn', hparent, -⟩ := h.lists v n hn
      obtain ⟨hkind', hname', -⟩ := Node.mk.inj (hr.alone v n n' hn hn')
      have hhandles := hc.handles (hkind'.trans hkind) (hname'.trans hname)
      have hbeneath := hs.trail.beneath_root hs.linked (hpath ▸ List.mem_cons_self ..)
      obtain ⟨hshows, hplain, -⟩ := h.shows_of_handles hc ht hr hbeneath hn' hhandles
      obtain ⟨m, hm, hmp⟩ := ht.linked.hangs_of_lists p v hl
      obtain rfl : n = m := Option.some.inj (hn.symm.trans hm)
      have hspec : (Branch.mk v n' []).toSpec.Plain := (Branch.toSpec_mk v n' []).symm ▸ hplain
      exact hc.hasChild_iff.mp
        (hsettled ⟨v, n', []⟩ p hshows rfl hspec hhandles (hparent.trans hmp))
    · exact h.met z hz p hl hdeclares

/-- What grows is one declaration of the name of a copy, with the value of its original, which is
old. -/
theorem Stage.Tracked.echoes_of_grows {rest : List Handle} {b : Branch} {t' : Tree}
    (hpath : s.path = v :: rest) (hgrows : c.Grows s.tree v n p b t') :
    t.Declares v c.key ∧ t'.Echoes b.id v c.title ∧ b.handles = [b.id] ∧ b.node.children = [] := by
  have hsprouts := hgrows.sprouts
  have hv := hs.trail.beneath_root hs.linked (hpath ▸ List.mem_cons_self ..)
  have hdeclares := h.declares_of_handles hc ht hr hv hgrows.node hgrows.handles
  obtain ⟨hshows, hplain, hname⟩ := h.shows_of_handles hc ht hr hv hgrows.node hgrows.handles
  obtain ⟨hhandles, hchildren, hkind, hcopy, hvalue⟩ := hgrows.leaf hs.linked hshows hplain hname
  have hn := hsprouts.frame v n hgrows.node (hsprouts.ne hs.linked)
  have hkind' : b.node.kind = .declaration := hkind.trans (hgrows.handles.1.trans hc.kind)
  exact ⟨hdeclares, ⟨b.node, n, hsprouts.shows.get?, hn, hkind', hcopy, hvalue⟩,
    hhandles, hchildren⟩

theorem Stage.Tracked.sprout {rest : List Handle} {b : Branch} {t' : Tree}
    (hpath : s.path = v :: rest) (hgrows : c.Grows s.tree v n p b t') :
    Stage.Tracked t c { s with tree := t' } := by
  have hsprouts := hgrows.sprouts
  have hretains := hsprouts.retains hs.linked
  obtain ⟨hdeclares, hecho, hhandles, hchildren⟩ := h.echoes_of_grows hc ht hs hr hpath hgrows
  obtain ⟨np, np', left, right, hnp, hnp', hlist, hnp'', hfirst⟩ :=
    h.site_of_grows hc hs hpath hgrows
  constructor
  case lists =>
    intro q m hm
    obtain ⟨m', hm', hparent, hjoined⟩ := h.lists q m hm
    by_cases hqp : q = p
    · subst hqp
      obtain rfl : np = m := Option.some.inj (hnp.symm.trans hm)
      obtain rfl : np' = m' := Option.some.inj (hnp'.symm.trans hm')
      exact ⟨_, hnp'', hparent, Or.inr ⟨v, left, b.id, right, hlist, rfl, hfirst, hdeclares, hecho⟩⟩
    · exact ⟨m', hsprouts.frame q m' hm' hqp, hparent, hjoined.mono hretains⟩
  case new =>
    intro y m hy hm hdead
    have hroot : t'.root = s.tree.root := hsprouts.steps.root
    have hy' : t'.Beneath y s.tree.root := hroot ▸ hy
    rcases hsprouts.live_or_mem hs.linked hy' hs.linked.root with ⟨m', hm'⟩ | hmem
    · have hyp : y ≠ p := by
        rintro rfl
        exact absurd (hnp.symm.trans hdead) (by simp)
      obtain rfl : m = m' := Option.some.inj (hm.symm.trans (hsprouts.frame y m' hm' hyp))
      exact h.new y m ((hsprouts.beneath_iff hs.linked ⟨m, hm'⟩).mp hy') hm' hdead
    · have hfamily := hsprouts.family y hmem m hm
      rw [hhandles, List.mem_singleton] at hmem
      subst hmem
      obtain ⟨m', hm', hkind, hname⟩ := hecho.declares
      obtain rfl : m = m' := Option.some.inj (hm.symm.trans hm')
      obtain rfl : m = b.node := Option.some.inj (hm.symm.trans hsprouts.shows.get?)
      exact ⟨hkind, hname, hfamily, hchildren⟩
  case ordered => exact h.ordered
  case met =>
    intro z hz q hl hz'
    obtain ⟨y, hly, hy⟩ := h.met z hz q hl hz'
    exact ⟨y, (hsprouts.lists_iff hly.live).mpr (Or.inl hly),
      (hretains.declares_iff hy.live).mpr hy⟩

theorem Move.tracked (hmove : Move [c] s s') : s'.Tracked t c := by
  cases hmove with
  | enter hx => exact h.enter hs hx
  | prune hx hforeign =>
    rw [h.foreign_eq_false ht hs hr hx] at hforeign
    exact absurd hforeign (by simp)
  | sprout hpath _ hmem hgrows =>
    obtain rfl := List.mem_singleton.mp hmem
    exact h.sprout hc ht hs hr hpath hgrows
  | leave hpath _ hsettled =>
    exact h.leave hc ht hs hr hpath (hsettled c (List.mem_singleton_self c))

end Move

/-! ## Whole walks -/

section Completes

variable (hc : c.Direct) (ht : t.Unprefixed) (h : Completes [c] t s)
include hc ht h

theorem Completes.tracked : s.Tracked t c := by
  have hstart := Stage.valid_start ht.linked ht.rooted
  refine h.moves.induction hstart (Stage.tracked_start t c) ?_
  intro u u' hmoves hu hmove _ hu'
  exact Move.tracked hc ht hu (hmoves.retains hstart) hu' hmove

/-- Nothing is taken out. -/
theorem Completes.beneath_root (hx : t.Beneath x t.root) : s.tree.Beneath x s.tree.root := by
  rw [(h.retains ht.linked ht.rooted).root]
  refine ReflTransGen.mono ?_ x t.root hx
  rintro a q ⟨n, hn, hq⟩
  obtain ⟨n', hn', hparent, -⟩ := (h.tracked hc ht).lists a n hn
  exact ⟨n', hn', hparent.trans hq⟩

/-- At the end, a declaration that is covered is in a list with a copy. -/
theorem Completes.exists_copied (hx : s.tree.Beneath x s.tree.root) (hd : s.tree.Declares x c.key) :
    ∃ p v, t.Lists p x ∧ CopiedIn t s.tree c p v := by
  have hs := h.valid ht.linked ht.rooted
  have hr := h.retains ht.linked ht.rooted
  have htracked := h.tracked hc ht
  obtain ⟨m, hm, hkind, hname⟩ := hd
  have hhandles := hc.handles hkind hname
  have hdeclares := htracked.declares_of_handles hc ht hr hx hm hhandles
  obtain ⟨p, hhangs, hp⟩ := hx.hangs_of_ne (hhandles.ne_root hs.rooted hm)
  obtain ⟨r, hroot⟩ := hs.linked.root
  obtain ⟨n', hn'⟩ := Linked.live_of_beneath hp hroot
  obtain ⟨n, hn⟩ := htracked.live_of_lists hp (hs.linked.lists_of_hangs_of_live hhangs hn')
  have hlists : t.Lists p x :=
    ht.linked.lists_of_hangs_of_live (hr.toKept.hangs hdeclares.live hhangs) hn
  obtain ⟨y, hly, hy⟩ := htracked.met x (h.mem_finalized ht.linked ht.rooted hx) p hlists hdeclares
  obtain ⟨m', hm', -, hjoined⟩ := htracked.lists p n hn
  obtain rfl : n' = m' := Option.some.inj (hn'.symm.trans hm')
  rcases hjoined with hsame | ⟨v, hcopied⟩
  · -- a copy that was there at the beginning would have carried a vendor
    obtain ⟨k, hk, hyk⟩ := hly
    obtain rfl : n' = k := Option.some.inj (hn'.symm.trans hk)
    have hold := (ht.linked.hangs_of_lists p y ⟨n, hn, hsame ▸ hyk⟩).live
    exact absurd ((hr.declares_iff hold).mp hy) (ht.not_declares hc.vendor)
  · exact ⟨p, v, hlists, n, n', hn, hn', hcopied⟩

/-- At the end, a declaration that is covered stands right behind its copy exactly if it was the
first of its name in its list. -/
theorem Completes.preceded_iff (hx : s.tree.Beneath x s.tree.root) (hd : s.tree.Declares x c.key) :
    s.tree.Preceded x c.title ↔ ¬ t.Follows x c.key := by
  have hr := h.retains ht.linked ht.rooted
  obtain ⟨p, v, hl, hcopied⟩ := h.exists_copied hc ht hx hd
  have hlive := (ht.linked.hangs_of_lists p x hl).live
  rw [hcopied.preceded_iff hc.vendor ht (h.valid ht.linked ht.rooted).linked hr hl,
    hcopied.follows_iff ht.linked hl ((hr.declares_iff hlive).mp hd), not_not]

end Completes

/-! ## Transitions -/

/-- The cover of transitions. -/
def Cover.transition : Cover :=
  .declaration "transition" "-webkit-" Catalog.webkitTransition

omit [Data] in
theorem Cover.direct_transition : Cover.transition.Direct where
  toTame := tame_catalog _ (by simp [catalog, transition])
  kind := rfl
  original := fun _ htext => .declaration (by decide +kernel) (by decide) (by decide) htext

/-- The module of transitions, applied with success, makes the moves of a whole walk with one
cover. -/
theorem completes_of_apply_transition {ι : Type} {w : Workspace ι} (hw : w.tree.Linked)
    (hroot : w.tree.Rooted) {steps : Nat}
    (hok : ((Plan.apply ⟨[Catalog.transition], none⟩ steps).run w).result = .ok ()) :
    ∃ s, Completes [Cover.transition] w.tree s ∧
      s.tree = ((Plan.apply ⟨[Catalog.transition], none⟩ steps).run w).state.tree := by
  have hplan : (Cover.plan none [[Cover.transition]] : Plan ι) = ⟨[Catalog.transition], none⟩ := rfl
  rw [← hplan] at hok ⊢
  exact completes_of_apply hw hroot hok

/-- After the module of transitions has been applied to a sown tree without vendors, a transition
beneath the root is preceded by its copy exactly if no other transition stood before it in the list
that it is in. -/
theorem transition_preceded_iff {ι : Type} {w : Workspace ι} (hw : w.tree.Sown)
    (hvendor : ∀ x n, w.tree.get? x = some n → n.vendor = none) {steps : Nat}
    (hok : ((Plan.apply ⟨[Catalog.transition], none⟩ steps).run w).result = .ok ()) :
    let t := ((Plan.apply ⟨[Catalog.transition], none⟩ steps).run w).state.tree
    ∀ x, t.Reaches t.root x → t.Declares x "transition" →
      (t.Preceded x "-webkit-transition" ↔ ¬ w.tree.Follows x "transition") := by
  intro t x hx hd
  have ht := hw.unprefixed hvendor
  obtain ⟨s, hcompletes, hs : s.tree = t⟩ := completes_of_apply_transition ht.linked ht.rooted hok
  rw [← hs] at hx hd ⊢
  have hbeneath := (hcompletes.valid ht.linked ht.rooted).linked.beneath_of_reaches hx
  exact hcompletes.preceded_iff Cover.direct_transition ht hbeneath hd

end General

/-- A rule `2v1` with two transitions, `3v1` and `4v1`. -/
def twoTransitions : Tree :=
  let t :=
    ((Edit.plant (.rule "a" [.declaration "transition" "b", .declaration "transition" "c"])).run
    Tree.empty).state
  ((Edit.append t.root (.node ⟨2, 1⟩)).run t).state

theorem planted_twoTransitions : twoTransitions.Planted := by
  refine .append (.plant .empty (.rule (by decide +kernel) (by decide) ?_)) ⟨2, 1⟩
  simp only [List.mem_cons, List.not_mem_nil, or_false]
  rintro s (rfl | rfl)
  · exact .declaration (by decide +kernel) (by decide) (by decide) (by decide +kernel)
  · exact .declaration (by decide +kernel) (by decide) (by decide) (by decide +kernel)

theorem unprefixed_twoTransitions : twoTransitions.Unprefixed := by
  refine planted_twoTransitions.sown.unprefixed fun x n hn => ?_
  have hall : ∀ y ∈ twoTransitions.arena.handles, twoTransitions.vendorAt y = none := by
    decide +kernel
  rw [← vendorAt_of_get? hn]
  exact hall x (Arena.mem_handles_iff.mpr ⟨n, hn⟩)

theorem exists_rule_twoTransitions :
    ∃ n, twoTransitions.get? ⟨2, 1⟩ = some n ∧ n.children = [⟨3, 1⟩, ⟨4, 1⟩] :=
  ⟨_, rfl, rfl⟩

theorem follows_twoTransitions : twoTransitions.Follows ⟨4, 1⟩ "transition" := by
  obtain ⟨n, hn, hlist⟩ := exists_rule_twoTransitions
  exact ⟨⟨2, 1⟩, n, [⟨3, 1⟩], [], ⟨3, 1⟩, hn, hlist, List.mem_singleton_self _, ⟨_, rfl, rfl, rfl⟩⟩

theorem not_follows_twoTransitions : ¬ twoTransitions.Follows ⟨3, 1⟩ "transition" := by
  have ht := unprefixed_twoTransitions.linked
  obtain ⟨n, hn, hlist⟩ := exists_rule_twoTransitions
  rintro ⟨q, m, before, behind, z, hm, hlist', hz, -⟩
  obtain rfl : ⟨2, 1⟩ = q := (ht.hangs_of_lists _ ⟨3, 1⟩ ⟨n, hn, by simp [hlist]⟩).unique
    (ht.hangs_of_lists q ⟨3, 1⟩ ⟨m, hm, by simp [hlist']⟩)
  obtain rfl : n = m := Option.some.inj (hn.symm.trans hm)
  have hcut : [] ++ (⟨3, 1⟩ : Handle) :: [⟨4, 1⟩] = before ++ ⟨3, 1⟩ :: behind :=
    hlist.symm.trans hlist'
  obtain ⟨rfl, -, -⟩ := (List.append_cons_inj_of_notMem (by simp) (by decide)).mp hcut
  exact absurd hz (by simp)

/-- The module of transitions can be applied to the two transitions, and leaves both where they
are. -/
theorem exists_apply_twoTransitions : ∃ steps s,
    let o :=
      (Plan.apply ⟨[Catalog.transition], none⟩ steps).run (⟨twoTransitions, ()⟩ : Workspace Unit)
    o.result = .ok () ∧ s.tree = o.state.tree ∧ Completes [Cover.transition] twoTransitions s ∧
      ∀ x ∈ [(⟨3, 1⟩ : Handle), ⟨4, 1⟩],
        s.tree.Reaches s.tree.root x ∧ s.tree.Declares x "transition" := by
  have ht := unprefixed_twoTransitions
  have htame : ∀ c ∈ Cover.needed none [[Cover.transition]].flatten, c.Tame := by
    intro c hc
    obtain rfl := List.mem_singleton.mp (List.mem_of_mem_filter hc)
    exact Cover.direct_transition.toTame
  obtain ⟨_, steps, hrun⟩ := exists_apply htame (w := (⟨twoTransitions, ()⟩ : Workspace Unit))
    planted_twoTransitions.regular
  have hok : ((Plan.apply ⟨[Catalog.transition], none⟩ steps).run
      (⟨twoTransitions, ()⟩ : Workspace Unit)).result = .ok () := (hrun steps (Nat.le_refl _)).1
  obtain ⟨s, hcompletes, hs⟩ := completes_of_apply_transition ht.linked ht.rooted hok
  refine ⟨steps, s, hok, hs, hcompletes, fun x hx => ?_⟩
  have hin : twoTransitions.Beneath x twoTransitions.root ∧
      twoTransitions.Declares x "transition" := by
    obtain ⟨r, hr⟩ := ht.linked.root
    simp only [List.mem_cons, List.not_mem_nil, or_false] at hx
    rcases hx with rfl | rfl
    · exact ⟨(ht.linked.isAbove_iff hr).mp (by decide +kernel), ⟨_, rfl, rfl, rfl⟩⟩
    · exact ⟨(ht.linked.isAbove_iff hr).mp (by decide +kernel), ⟨_, rfl, rfl, rfl⟩⟩
  have hlinked := (hcompletes.valid ht.linked ht.rooted).linked
  obtain ⟨r, hr⟩ := hlinked.root
  refine ⟨(hlinked.reaches_iff hr).mpr (hcompletes.beneath_root Cover.direct_transition ht hin.1),
    ?_⟩
  exact ((hcompletes.retains ht.linked ht.rooted).declares_iff hin.2.live).mpr hin.2

/-- Of the two transitions the first is preceded by its copy. -/
theorem transition_preceded_iff_two :
    ∃ steps,
      let o :=
        (Plan.apply ⟨[Catalog.transition], none⟩ steps).run (⟨twoTransitions, ()⟩ : Workspace Unit)
      o.result = .ok () ∧ o.state.tree.Preceded ⟨3, 1⟩ "-webkit-transition" := by
  obtain ⟨steps, s, hok, hs, -, hkept⟩ := exists_apply_twoTransitions
  rw [hs] at hkept
  obtain ⟨hreaches, hdeclares⟩ := hkept ⟨3, 1⟩ (by simp)
  have hiff := transition_preceded_iff planted_twoTransitions.sown unprefixed_twoTransitions.vendor
    hok ⟨3, 1⟩ hreaches hdeclares
  exact ⟨steps, hok, hiff.mpr not_follows_twoTransitions⟩

/-- Not every transition is preceded by its copy: of the two transitions of a rule the second is
not, although the tree is sown and carries no vendors, and the module has been applied with
success. -/
theorem transition_unpreceded :
    twoTransitions.Sown ∧ (∀ x n, twoTransitions.get? x = some n → n.vendor = none) ∧
    ∃ steps,
      let o :=
        (Plan.apply ⟨[Catalog.transition], none⟩ steps).run (⟨twoTransitions, ()⟩ : Workspace Unit)
      o.result = .ok () ∧ o.state.tree.Reaches o.state.tree.root ⟨4, 1⟩ ∧
      o.state.tree.Declares ⟨4, 1⟩ "transition" ∧
      ¬ o.state.tree.Preceded ⟨4, 1⟩ "-webkit-transition" := by
  have ht := unprefixed_twoTransitions
  refine ⟨planted_twoTransitions.sown, ht.vendor, ?_⟩
  obtain ⟨steps, s, hok, hs, hcompletes, hkept⟩ := exists_apply_twoTransitions
  obtain ⟨hreaches, hdeclares⟩ := hkept ⟨4, 1⟩ (by simp)
  have hbeneath := (hcompletes.valid ht.linked ht.rooted).linked.beneath_of_reaches hreaches
  have hiff := hcompletes.preceded_iff Cover.direct_transition ht hbeneath hdeclares
  refine ⟨steps, hok, ?_⟩
  rw [← hs]
  exact ⟨hreaches, hdeclares, fun hpreceded => hiff.mp hpreceded follows_twoTransitions⟩

end StyleTree
