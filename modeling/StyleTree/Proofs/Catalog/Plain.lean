import StyleTree.Proofs.Catalog.Refine

/-!
# Plain trees

A tree is plain if it is described by plain descriptions, that is if every node beneath the root is
plain.  In a plain tree every node can be copied, and covers are settled for good: a copy is
described like its original, under a plain name of its own.

* `Node.Plain`, `Tree.Plain`: plain nodes and trees, node by node.
* `Shows.plain_iff`: a branch is described by a plain description exactly if its nodes are plain.
* `Cover.Tame`: what the covers of a catalog have in common: the names of the copies are plain names
  that carry a vendor, and the names that are covered carry none.
* `Grows.toSpec_eq`: what grows in a plain tree.
* `Move.plain`: with tame covers, moves keep trees plain.
* `Tree.Regular`: all that is asked of a tree in what follows, kept by moves as well.
-/

namespace StyleTree

open StyleTree.Tree Relation

/-- A description is plain if its topmost node and its children are, and only a block has
children. -/
theorem Spec.plain_iff {s : Spec} : s.Plain ↔ Spec.Plain { s with children := [] } ∧
    (s.block = false → s.children = []) ∧ ∀ c ∈ s.children, c.Plain := by
  constructor
  · intro h
    cases h with
    | rule htext hat hchildren => exact ⟨.rule htext hat (by simp), by simp, hchildren⟩
    | block hname hvalue hchildren => exact ⟨.block hname hvalue (by simp), by simp, hchildren⟩
    | statement hname hvalue => exact ⟨.statement hname hvalue, fun _ => rfl, by simp⟩
    | declaration hname hcolon hat hvalue =>
      exact ⟨.declaration hname hcolon hat hvalue, fun _ => rfl, by simp⟩
  · obtain ⟨kind, name, value, block, children⟩ := s
    rintro ⟨hbare, hblock, hchildren⟩
    cases hbare with
    | rule htext hat _ => exact .rule htext hat hchildren
    | block hname hvalue _ => exact .block hname hvalue hchildren
    | statement hname hvalue =>
      obtain rfl : children = [] := hblock rfl
      exact .statement hname hvalue
    | declaration hname hcolon hat hvalue =>
      obtain rfl : children = [] := hblock rfl
      exact .declaration hname hcolon hat hvalue

variable [Data]

/-- A node that stands for a plain description, without a second name. -/
structure Node.Plain (n : Node) : Prop where
  bare : n.bare.Plain
  children : n.block = false → n.children = []
  family : n.family = none

/-- A node is plain if its attributes are those of a plain node and it has no children that the
other has not. -/
theorem Node.Plain.congr {n m : Node} (h : n.Plain) (hbare : m.bare = n.bare)
    (hfamily : m.family = n.family) (hchildren : n.children = [] → m.children = []) : m.Plain where
  bare := hbare ▸ h.bare
  children := by
    intro hblock
    have hsame : m.block = n.block := congrArg Spec.block hbare
    exact hchildren (h.children (hsame.symm.trans hblock))
  family := hfamily.trans h.family

namespace Tree

variable {t t' : Tree} {x y p v : Handle} {n m : Node} {b d : Branch}

/-- Every node beneath the root is plain. -/
def Plain (t : Tree) : Prop :=
  ∀ x n, t.Beneath x t.root → x ≠ t.root → t.get? x = some n → n.Plain

/-- A branch whose nodes have no second names is plain node by node exactly if its description
is. -/
theorem Shows.plain_iff (h : t.Shows b)
    (hfamily : ∀ x ∈ b.handles, ∀ n, t.get? x = some n → n.family = none) :
    (∀ x ∈ b.handles, ∀ n, t.get? x = some n → n.Plain) ↔ b.toSpec.Plain := by
  induction h with
  | @mk id node bs hnode hchildren hbs ih =>
    have hmem : ∀ d ∈ bs, ∀ x ∈ d.handles, x ∈ (Branch.mk id node bs).handles := by
      intro d hd x hx
      rw [Branch.handles_mk]
      exact List.mem_cons_of_mem _ (List.mem_flatMap.mpr ⟨d, hd, hx⟩)
    have hnil : node.children = [] ↔ bs.map Branch.toSpec = [] := by
      rw [← hchildren, List.map_eq_nil_iff, List.map_eq_nil_iff]
    have ih' := fun d hd => ih d hd fun x hx => hfamily x (hmem d hd x hx)
    rw [Branch.toSpec_mk, Spec.plain_iff]
    constructor
    · intro hall
      have htop := hall id (Branch.id_mem_handles ⟨id, node, bs⟩) node hnode
      refine ⟨htop.bare, fun hblock => hnil.mp (htop.children hblock), fun s hs => ?_⟩
      obtain ⟨d, hd, rfl⟩ := List.mem_map.mp hs
      exact (ih' d hd).mp fun x hx => hall x (hmem d hd x hx)
    · rintro ⟨hbare, hblock, hall⟩ x hx n hn
      rw [Branch.handles_mk] at hx
      rcases List.mem_cons.mp hx with rfl | hx
      · obtain rfl : node = n := Option.some.inj (hnode.symm.trans hn)
        refine ⟨hbare, fun h => hnil.mpr (hblock h), ?_⟩
        exact hfamily x (Branch.id_mem_handles ⟨x, node, bs⟩) node hnode
      · obtain ⟨d, hd, hx⟩ := List.mem_flatMap.mp hx
        exact (ih' d hd).mpr (hall _ (List.mem_map_of_mem hd)) x hx n hn

/-- In a plain tree the branches below the root have plain descriptions. -/
theorem Plain.toSpec (ht : t.Linked) (hp : t.Plain) (hb : t.Shows b) (hid : t.Beneath b.id t.root)
    (hne : b.id ≠ t.root) : b.toSpec.Plain := by
  have hall : ∀ x ∈ b.handles, ∀ n, t.get? x = some n → n.Plain := by
    intro x hx n hn
    have hxb := (hb.mem_handles_iff ht).mp hx
    refine hp x n (hxb.trans hid) ?_ hn
    rintro rfl
    exact hne (ht.eq_of_beneath_of_beneath hid hxb)
  exact (hb.plain_iff fun x hx n hn => (hall x hx n hn).family).mp hall

/-- A linked tree with a document at its root, plain, and with the vendors that the names carry. -/
structure Regular (t : Tree) : Prop where
  linked : t.Linked
  rooted : t.Rooted
  plain : t.Plain
  labelled : t.Labelled

end Tree

/-! ## Tame covers -/

namespace Cover

variable {t t' : Tree} {v p : Handle} {n m : Node} {b d : Branch} {c c' : Cover} {cs : List Cover}

/-- The name of a copy of a node that is found by its name. -/
def title (c : Cover) : String :=
  c.affix ++ c.key

/-- The names of copies are plain and carry a vendor, and what is copied carries none. -/
structure Tame (c : Cover) : Prop where
  plain : ∀ s : Spec, s.Plain → s.kind = c.kind → Spec.Plain { s with name := some c.title }
  vendor : vendorOfName c.title ≠ none
  key : vendorOfName c.key = none

omit [Data] in
/-- A cover of at-rules is tame if the names of the copies are at-names. -/
theorem tame_atRule {name affix : String} {native : NativeMap}
    (hname : Css.isAtName (affix ++ name).toList = true)
    (hvendor : vendorOfName (affix ++ name) ≠ none) (hkey : vendorOfName name = none) :
    (atRule name affix native).Tame where
  plain := by
    rintro s hs hkind
    cases hs with
    | block _ hvalue hchildren => exact .block hname hvalue hchildren
    | statement _ hvalue => exact .statement hname hvalue
    | rule | declaration => exact absurd hkind (by simp [kind])
  vendor := hvendor
  key := hkey

omit [Data] in
/-- A cover of declarations is tame if the names of the copies are plain names of declarations. -/
theorem tame_declaration {property affix : String} {native : NativeMap}
    (hname : Css.IsPlain (affix ++ property).toList) (hcolon : ':' ∉ (affix ++ property).toList)
    (hat : (affix ++ property).toList.head? ≠ some '@')
    (hvendor : vendorOfName (affix ++ property) ≠ none) (hkey : vendorOfName property = none) :
    (declaration property affix native).Tame where
  plain := by
    rintro s hs hkind
    cases hs with
    | declaration _ _ _ hvalue => exact .declaration hname hcolon hat hvalue
    | rule | block | statement => exact absurd hkind (by simp [kind])
  vendor := hvendor
  key := hkey

/-- In a plain tree nodes are found by their names. -/
theorem Handles.name_eq (h : c.Handles n) (hn : n.Plain) : n.name = some c.key := by
  rcases h.2 with hname | ⟨-, hfamily⟩
  · exact hname
  · rw [hn.family] at hfamily
    exact absurd hfamily (by simp)

theorem prefixed_of_name (hname : n.name = some c.key) : c.prefixed n = c.title := by
  cases c with
  | atRule name affix native =>
    show affix ++ n.name.getD "" = affix ++ name
    rw [hname]
    rfl
  | declaration property affix native => rfl

/-- The copies of a tame cover are not copied in their turn. -/
theorem Tame.not_handles (hc : c.Tame) (hc' : c'.Tame) (hn : n.Plain)
    (hname : n.name = some c.title) : ¬ c'.Handles n := by
  intro h
  have he : c.title = c'.key := Option.some.inj (hname.symm.trans (h.name_eq hn))
  exact hc.vendor (he ▸ hc'.key)

/-- What grows in a plain tree is described like the node that it grows before, tidied and under the
name of the copy. -/
theorem Grows.toSpec_eq (ht : t.Linked) (hroot : t.Rooted) (hp : t.Plain) (hv : t.Beneath v t.root)
    (h : c.Grows t v n p b t') (hd : t.Shows d) (hid : d.id = v) :
    d.toSpec.Plain ∧ b.toSpec = { d.toSpec.tidied with name := some c.title } := by
  subst hid
  have hne := h.handles.ne_root hroot h.node
  have hplain := hp.toSpec ht hd hv hne
  obtain ⟨spec, hcopies, hspec⟩ := h.copies
  rw [(copies_iff_of_plain ht hd hplain).mp hcopies,
    prefixed_of_name (h.handles.name_eq (hp d.id n hv hne h.node))] at hspec
  exact ⟨hplain, hspec⟩

/-- The nodes of what grows in a plain tree are plain. -/
theorem Grows.plain (hc : c.Tame) (ht : t.Linked) (hroot : t.Rooted) (hp : t.Plain)
    (hv : t.Beneath v t.root) (h : c.Grows t v n p b t') :
    ∀ x ∈ b.handles, ∀ m, t'.get? x = some m → m.Plain := by
  obtain ⟨d, -, hid, hd⟩ := ht.exists_branch? h.node
  obtain ⟨hplain, hspec⟩ := h.toSpec_eq ht hroot hp hv hd hid
  refine (h.sprouts.shows.plain_iff h.sprouts.family).mpr ?_
  have hkind : d.toSpec.tidied.kind = c.kind := by
    obtain rfl : n = d.node := Option.some.inj (h.node.symm.trans (hid ▸ hd.get?))
    rw [d.toSpec_eq]
    exact h.handles.1
  rw [hspec]
  exact hc.plain _ hplain.tidied hkind

/-- The topmost of them has the name of the copy. -/
theorem Grows.name_eq (ht : t.Linked) (hroot : t.Rooted) (hp : t.Plain)
    (hv : t.Beneath v t.root) (h : c.Grows t v n p b t') : b.node.name = some c.title := by
  obtain ⟨d, -, hid, hd⟩ := ht.exists_branch? h.node
  obtain ⟨-, hspec⟩ := h.toSpec_eq ht hroot hp hv hd hid
  rw [b.toSpec_eq] at hspec
  exact congrArg Spec.name hspec

end Cover

/-! ## Moves in plain trees -/

/-- With tame covers moves keep trees plain. -/
theorem Move.plain {cs : List Cover} {s s' : Stage} (hcs : ∀ c ∈ cs, c.Tame) (h : Move cs s s')
    (hs : s.Valid) (hp : s.tree.Plain) : s'.tree.Plain := by
  cases h with
  | enter | leave => exact hp
  | @prune c hx hforeign =>
    obtain ⟨n, hn⟩ := hx.live hs
    intro x m hx' hne hm
    have hxc : ¬ s.tree.Beneath x c := by
      intro hb
      obtain ⟨q, hq, -⟩ := hx'.hangs_of_ne hne
      exact ((hangs_prune hs.linked hn).mp hq).2 hb
    rw [root_prune, beneath_prune hs.linked hn hxc] at hx'
    rw [root_prune] at hne
    rw [get?_prune_of_not_beneath hs.linked hn hxc] at hm
    obtain ⟨m', hm', rfl⟩ := Option.map_eq_some_iff.mp hm
    refine (hp x m' hx' hne hm').congr rfl rfl fun hnil => ?_
    show m'.children.filter _ = []
    rw [hnil, List.filter_nil]
  | @sprout v p rest c n b t hpath hdone hc hgrows =>
    have hv : s.tree.Beneath v s.tree.root :=
      hs.trail.beneath_root hs.linked (hpath ▸ List.mem_cons_self ..)
    have hroot : t.root = s.tree.root := hgrows.sprouts.steps.root
    intro x m hx hne hm
    rw [hroot] at hx hne
    rcases hgrows.sprouts.live_or_mem hs.linked hx hs.linked.root with ⟨m', hm'⟩ | hmem
    · have hplain := hp x m' ((hgrows.sprouts.beneath_iff hs.linked ⟨m', hm'⟩).mp hx) hne hm'
      by_cases hxp : x = p
      · -- the parent has a child already, so nothing is asked of its children
        subst hxp
        obtain ⟨np, left, right, hnp, hchildren, hnp'⟩ := hgrows.sprouts.beside
        obtain rfl : m' = np := Option.some.inj (hm'.symm.trans hnp)
        obtain rfl := Option.some.inj (hm.symm.trans hnp')
        refine hplain.congr rfl rfl fun hnil => ?_
        rw [hnil] at hchildren
        exact absurd hchildren (by simp)
      · obtain rfl := Option.some.inj (hm.symm.trans (hgrows.sprouts.frame x m' hm' hxp))
        exact hplain
    · exact hgrows.plain (hcs c hc) hs.linked hs.rooted hp hv x hmem m hm

theorem Moves.plain {cs : List Cover} {floor : List Handle} {s s' : Stage} (hcs : ∀ c ∈ cs, c.Tame)
    (h : Moves cs floor s s') (hs : s.Valid) (hp : s.tree.Plain) : s'.tree.Plain :=
  h.induction (P := fun u => u.tree.Plain) hs hp fun _ _ _ hu hmove _ hp => hmove.plain hcs hu hp

theorem Moves.regular {cs : List Cover} {floor : List Handle} {s s' : Stage}
    (hcs : ∀ c ∈ cs, c.Tame) (h : Moves cs floor s s') (hs : s.Valid) (hr : s.tree.Regular) :
    s'.tree.Regular where
  linked := (h.valid hs).linked
  rooted := (h.valid hs).rooted
  plain := h.plain hcs hs hr.plain
  labelled := (h.steps hs).labelled hs.linked hr.labelled

/-- What a walk makes of a regular tree is regular. -/
theorem Completes.regular {cs : List Cover} {s : Stage} {t : Tree} (hcs : ∀ c ∈ cs, c.Tame)
    (ht : t.Regular) (h : Completes cs t s) : s.tree.Regular :=
  h.moves.regular hcs (Stage.valid_start ht.linked ht.rooted) ht

end StyleTree
