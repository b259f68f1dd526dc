import StyleTree.Proofs.Catalog.Adds
import StyleTree.Proofs.Catalog.Covered

/-!
# Covers applied twice

A second walk with the same covers leaves everything beneath the root as it was.  The tree that the
first walk leaves is `Stable`: no vendors clash, and every cover is met at every node.  From such a
tree a walk still makes moves.  It puts copies beside nodes where a node above carries another
vendor, and prunes them when it comes to them.

* No old node is pruned, because none clashes with a node above it.  So old nodes only get new
  children.
* A new child of an old node is a `Stray`: a copy that is not copied in its turn and that clashes
  with a node above it (`Move.strays`).
* At the end no vendors clash, so no strays are left beneath the root (`Stable.get?_eq`).
* `print_catalog_twice`: hence what is printed after the second walk is what is printed after the
  first.
-/

namespace StyleTree

open StyleTree.Tree Relation

section General

variable [Data]

/-- Nothing has to be pruned, and every cover is met at every node. -/
structure Tree.Stable (cs : List Cover) (t : Tree) : Prop extends t.Regular where
  pure : ∀ x, ¬ t.Clashes x
  met : ∀ x n p, t.Beneath x t.root → t.get? x = some n → n.parent = some p →
    ∀ c ∈ cs, n.kind = c.kind → n.name = some c.key → c.Met t p n

/-- What a walk over a regular tree leaves is stable. -/
theorem Completes.stable {cs : List Cover} {s : Stage} {t : Tree} (hcs : ∀ c ∈ cs, c.Tame)
    (ht : t.Regular) (h : Completes cs t s) : s.tree.Stable cs where
  toRegular := h.regular hcs ht
  pure := h.not_clashes ht.linked ht.rooted
  met := fun _ _ _ hx hn hp _ hc hkind hname => h.met hcs ht hx hn hp hc hkind hname

/-- A copy of one of the covers that clashes with a node above it. -/
structure Tree.Stray (cs : List Cover) (t : Tree) (x : Handle) : Prop where
  copy : ∃ c ∈ cs, ∃ n, t.get? x = some n ∧ n.name = some c.title
  clashes : t.Clashes x

/-- Every new node that hangs from a node of `t` is a stray. -/
def Stage.Strays (cs : List Cover) (t : Tree) (s : Stage) : Prop :=
  ∀ x p, s.tree.Hangs x p → (∃ n, t.get? p = some n) → (∃ n, t.get? x = some n) ∨ s.tree.Stray cs x

variable {cs : List Cover} {s s' : Stage} {t t' : Tree}

/-- A stray that still clashes is still a stray. -/
theorem Tree.Stray.retains {x : Handle} (h : t.Stray cs x) (hr : Retains t t')
    (hclashes : t'.Clashes x) : t'.Stray cs x := by
  obtain ⟨⟨c, hc, n, hn, hname⟩, -⟩ := h
  obtain ⟨n', hn', halone⟩ := hr.get? hn
  obtain ⟨-, hname', -⟩ := Node.mk.inj halone
  exact ⟨⟨c, hc, n', hn', hname'.trans hname⟩, hclashes⟩

/-- Where nothing has been cut, old nodes have their old children. -/
theorem Tree.Overlays.lists {p x : Handle} (h : Overlays t [] t') (hl : t.Lists p x) :
    t'.Lists p x := by
  obtain ⟨n, hn, hx⟩ := hl
  obtain ⟨n', hn', -, hchildren⟩ := h.links p n hn
  rw [← hchildren] at hx
  exact ⟨n', hn', List.mem_of_mem_filter hx⟩

theorem Tree.Overlays.hasChild {p : Handle} {q : Query} (h : Overlays t [] t')
    (hq : t.hasChild p q = true) : t'.hasChild p q = true := by
  obtain ⟨x, m, hl, hm, haccepts⟩ := hasChild_iff.mp hq
  obtain ⟨m', hm', haccepts'⟩ := h.retains.exists_accepts hm haccepts
  exact hasChild_iff.mpr ⟨x, m', h.lists hl, hm', haccepts'⟩

/-- A way down in a tree where nothing has been cut is still one. -/
theorem Tree.Overlays.above {x y : Handle} (h : Overlays t [] t') (ht : t.Linked)
    (ha : t.Above x y) : t'.Above x y := by
  obtain ⟨hx, hy⟩ := ha.live ht
  refine ⟨(h.beneath_iff ht hx hy).mpr ha.1, ?_⟩
  rw [h.retains.root]
  exact (h.beneath_iff ht hy ht.root).mpr ha.2

/-- Where a branch grows before a node of a stable tree, the cover is met, but the copy is not
there, so it is out of place. -/
theorem Tree.Stable.exists_above_of_grows {c : Cover} {v p : Handle} {n : Node} {b : Branch}
    (h : t.Stable cs) (hs : s.Valid) (hover : Overlays t [] s.tree)
    (hr : s.tree.Regular) (hc : c ∈ cs) (hv : s.tree.Beneath v s.tree.root)
    (hlive : ∃ n, t.get? v = some n) (hgrows : c.Grows s.tree v n p b t') :
    ∃ y o, s.tree.Above p y ∧ s.tree.vendorAt y = some o ∧ vendorOfName c.title ≠ some o := by
  obtain ⟨n₀, hn₀⟩ := hlive
  obtain ⟨m, hm, hparent, -⟩ := hover.links v n₀ hn₀
  obtain rfl : n = m := Option.some.inj (hgrows.node.symm.trans hm)
  have halone := hover.retains.alone v n₀ n hn₀ hm
  obtain ⟨hkind, hname, -⟩ := Node.mk.inj halone
  have hkey := hgrows.handles.name_eq (hr.plain v n hv (hgrows.handles.ne_root hs.rooted hm) hm)
  have hp : n₀.parent = some p := by
    obtain ⟨k, hk, hkp⟩ := hs.linked.hangs_of_lists p v hgrows.sprouts.lists_self
    obtain rfl : n = k := Option.some.inj (hm.symm.trans hk)
    rw [← hparent, hkp]
  have hv₀ : t.Beneath v t.root :=
    hover.retains.root ▸ hover.retains.toKept.beneath h.linked ⟨n₀, hn₀⟩ hv
  rcases h.met v n₀ p hv₀ hn₀ hp c hc (hkind.symm.trans hgrows.handles.1)
    (hname.symm.trans hkey) with
    hchild | ⟨y, o, habove, ho, hne⟩
  · have hthere := hover.hasChild hchild
    rw [← Cover.existing_congr halone, hgrows.absent] at hthere
    exact absurd hthere (by simp)
  · refine ⟨y, o, hover.above h.linked habove, ?_, hne⟩
    rw [hover.retains.vendorAt (habove.live h.linked).2, ho]

/-- So the branch is a stray. -/
theorem Tree.Stable.stray_of_grows {c : Cover} {v p : Handle} {n : Node} {b : Branch}
    (h : t.Stable cs) (hcs : ∀ c ∈ cs, c.Tame) (hs : s.Valid) (hover : Overlays t [] s.tree)
    (hr : s.tree.Regular) (hc : c ∈ cs) (hv : s.tree.Beneath v s.tree.root)
    (hlive : ∃ n, t.get? v = some n) (hgrows : c.Grows s.tree v n p b t') : t'.Stray cs b.id := by
  have hsprouts := hgrows.sprouts
  have hname := hgrows.name_eq hs.linked hs.rooted hr.plain hv
  have hget := hsprouts.shows.get?
  obtain ⟨y, o, habove, ho, hne⟩ := h.exists_above_of_grows hs hover hr hc hv hlive hgrows
  obtain ⟨o', ho'⟩ := Option.ne_none_iff_exists'.mp (hcs c hc).vendor
  have habove' := habove.sprouts hs.linked hsprouts
  have hhangs : t'.Hangs b.id p := ⟨b.node, hget, hsprouts.parent⟩
  refine ⟨⟨c, hc, b.node, hget, hname⟩, y, ⟨(Beneath.of_hangs hhangs).trans habove'.1, habove'.2⟩,
    o', o, ?_, ?_, ?_⟩
  · rw [Cover.vendorAt_of_name (hsprouts.steps.labelled hs.linked hr.labelled) hget hname, ho']
  · rw [(hsprouts.retains hs.linked).vendorAt (habove.live hs.linked).2, ho]
  · rintro rfl
    exact hne ho'

theorem Move.strays (h : Move cs s s') (ht : t.Stable cs) (hcs : ∀ c ∈ cs, c.Tame) (hs : s.Valid)
    (hover : Overlays t [] s.tree) (hr : s.tree.Regular) (hstrays : s.Strays cs t) :
    s'.Strays cs t := by
  cases h with
  | enter | leave => exact hstrays
  | @prune x hx hforeign =>
    obtain ⟨nx, hnx⟩ := hx.live hs
    intro z p hzp hp
    obtain ⟨hzp, hzx⟩ := (hangs_prune hs.linked hnx).mp hzp
    exact (hstrays z p hzp hp).imp_right fun hstray =>
      hstray.retains (Retains.prune hs.linked hnx) (hstray.clashes.prune hs.linked hnx hzx)
  | @sprout v p rest c n b t' hpath hdone hc hgrows =>
    have hsprouts := hgrows.sprouts
    have hv := hs.trail.beneath_root hs.linked (hpath ▸ List.mem_cons_self ..)
    intro z q hzq hq
    by_cases hz : ∃ m, s.tree.get? z = some m
    · exact (hstrays z q ((hsprouts.hangs_iff hz).mp hzq) hq).imp_right fun hstray =>
        hstray.retains (hsprouts.retains hs.linked) (hstray.clashes.sprouts hs.linked hsprouts)
    · -- the one new node that hangs from an old one is the top of the branch
      have hqlive := hover.retains.toKept.live hq
      obtain ⟨nq, hnq⟩ := (hsprouts.retains hs.linked).toKept.live hqlive
      have hl := (hsprouts.steps.linked hs.linked).lists_of_hangs_of_live hzq hnq
      rcases (hsprouts.lists_iff hqlive).mp hl with hl | ⟨rfl, rfl⟩
      · exact absurd (hs.linked.hangs_of_lists q z hl).live hz
      · rcases hstrays v q (hs.linked.hangs_of_lists q v hsprouts.lists_self) hq with hlive | hstray
        · exact Or.inr (ht.stray_of_grows hcs hs hover hr hc hv hlive hgrows)
        · obtain ⟨c', hc', m, hm, hname⟩ := hstray.copy
          obtain rfl : n = m := Option.some.inj (hgrows.node.symm.trans hm)
          have hnplain := hr.plain v n hv (hgrows.handles.ne_root hs.rooted hm) hm
          exact absurd hgrows.handles ((hcs c' hc').not_handles (hcs c hc) hnplain hname)

/-- In a walk over a stable tree no old node is pruned, and new children of old nodes are strays. -/
theorem Completes.strays (hcs : ∀ c ∈ cs, c.Tame) (ht : t.Stable cs) (h : Completes cs t s) :
    Overlays t [] s.tree ∧ s.Strays cs t := by
  have hstart := Stage.valid_start ht.linked ht.rooted
  refine h.moves.induction (P := fun u => Overlays t [] u.tree ∧ u.Strays cs t) hstart
    ⟨Overlays.refl ht.linked, fun x p hxp hp => Or.inl hxp.live⟩ ?_
  rintro u u' hmoves hu hmove - ⟨hover, hstrays⟩
  obtain ⟨ps, hover', hps⟩ := hmove.overlays hu ht.linked hover (by simp)
  obtain rfl : ps = [] := by
    refine List.eq_nil_iff_forall_not_mem.mpr fun p hp => ?_
    exact ht.pure p ((hps p hp).1.clashes ht.linked)
  exact ⟨hover', hmove.strays ht hcs hu hover (hmoves.regular hcs hstart ht.toRegular) hstrays⟩

theorem Node.eq_of_alone {m n : Node} (h : m.alone = n.alone) (hparent : m.parent = n.parent)
    (hchildren : m.children = n.children) : m = n := by
  obtain ⟨hkind, hname, hvendor, hvalue, hfamily, hblock, -, -, hdata⟩ := Node.mk.inj h
  cases m
  cases n
  simp_all

/-- A walk over a stable tree leaves every node beneath the root as it was. -/
theorem Tree.Stable.get?_eq (ht : t.Stable cs) (hcs : ∀ c ∈ cs, c.Tame) (h : Completes cs t s)
    {x : Handle} (hx : t.Beneath x t.root) : s.tree.get? x = t.get? x := by
  have hs := h.valid ht.linked ht.rooted
  obtain ⟨hover, hstrays⟩ := h.strays hcs ht
  obtain ⟨r, hr⟩ := ht.linked.root
  obtain ⟨n, hn⟩ := Linked.live_of_beneath hx hr
  obtain ⟨n', hn', hparent, hchildren⟩ := hover.links x n hn
  have hold : n'.children.filter t.contains = n'.children := by
    refine List.filter_eq_self.mpr fun z hz => contains_iff.mpr ?_
    refine (hstrays z x (hs.linked.hangs_of_lists x z ⟨n', hn', hz⟩) ⟨n, hn⟩).resolve_right ?_
    exact fun hstray => h.not_clashes ht.linked ht.rooted z hstray.clashes
  rw [hn, hn', Node.eq_of_alone (hover.retains.alone x n n' hn hn')
    hparent (hold.symm.trans hchildren)]

/-- So it prints as it did. -/
theorem Tree.Stable.print_eq (ht : t.Stable cs) (hcs : ∀ c ∈ cs, c.Tame) (h : Completes cs t s)
    (style : String) : ∃ text, t.print style t.root = .ok text ∧
      s.tree.print style s.tree.root = .ok text := by
  have hs := h.valid ht.linked ht.rooted
  obtain ⟨r, hr⟩ := ht.linked.root
  obtain ⟨b, -, hid, hb⟩ := ht.linked.exists_branch? hr
  have hb' : s.tree.Shows b := hb.congr fun x hx =>
    ht.get?_eq hcs h (hid ▸ (hb.mem_handles_iff ht.linked).mp hx)
  have hroot : s.tree.root = t.root := (h.retains ht.linked ht.rooted).root
  refine ⟨b.print style, ?_, ?_⟩
  · rw [← hid, hb.print_eq ht.linked]
  · rw [hroot, ← hid, hb'.print_eq hs.linked]

/-- The catalog can be applied to every planted tree, and applied again to what comes out, with
success each time; and what is printed after the second time is what is printed after the first. -/
theorem print_catalog_twice {ι : Type} (support : Option Targets) {w : Workspace ι}
    (hw : w.tree.Planted) :
    let run := fun (w : Workspace ι) (steps : Nat) =>
      (Plan.apply ⟨Catalog.all, support⟩ steps).run w
    ∃ (w₁ w₂ : Workspace ι) (least : Nat),
      (∀ steps, least ≤ steps → (run w steps).result = .ok () ∧ (run w steps).state = w₁) ∧
      (∀ steps, least ≤ steps → (run w₁ steps).result = .ok () ∧ (run w₁ steps).state = w₂) ∧
      ∀ style, ∃ text, w₁.tree.print style w₁.tree.root = .ok text ∧
        w₂.tree.print style w₂.tree.root = .ok text := by
  intro run
  have htame := Cover.tame_needed_catalog support
  have hr := hw.regular
  obtain ⟨w₁, least₁, hrun₁⟩ := exists_apply_catalog support hr
  obtain ⟨hok₁, hstate₁⟩ := hrun₁ least₁ (Nat.le_refl _)
  obtain ⟨s₁, hcompletes₁, hs₁⟩ := completes_of_apply_catalog hr.linked hr.rooted hok₁
  have hstable : w₁.tree.Stable (Cover.needed support Cover.catalog.flatten) := by
    rw [← hstate₁, ← hs₁]
    exact hcompletes₁.stable htame hr
  obtain ⟨w₂, least₂, hrun₂⟩ := exists_apply_catalog support hstable.toRegular
  obtain ⟨hok₂, hstate₂⟩ := hrun₂ least₂ (Nat.le_refl _)
  obtain ⟨s₂, hcompletes₂, hs₂⟩ := completes_of_apply_catalog hstable.linked hstable.rooted hok₂
  refine ⟨w₁, w₂, max least₁ least₂, fun steps hsteps => hrun₁ steps (by omega),
    fun steps hsteps => hrun₂ steps (by omega), fun style => ?_⟩
  rw [← hstate₂, ← hs₂]
  exact hstable.print_eq htame hcompletes₂ style

end General

/-- In the tree with two vendors the second walk puts copies where they are out of place and prunes
them again, and what is printed does not show it. -/
theorem print_catalog_twice_nested :
    let run := fun (w : Workspace Unit) (steps : Nat) =>
      (Plan.apply ⟨Catalog.all, none⟩ steps).run w
    ∃ (w₁ w₂ : Workspace Unit) (steps : Nat),
      (run ⟨Tree.nested, ()⟩ steps).result = .ok () ∧ (run ⟨Tree.nested, ()⟩ steps).state = w₁ ∧
      (run w₁ steps).result = .ok () ∧ (run w₁ steps).state = w₂ ∧
      ∃ text, w₁.tree.print "" w₁.tree.root = .ok text ∧
        w₂.tree.print "" w₂.tree.root = .ok text := by
  obtain ⟨w₁, w₂, least, hfirst, hsecond, hprint⟩ :=
    print_catalog_twice none (w := (⟨Tree.nested, ()⟩ : Workspace Unit)) planted_nested
  obtain ⟨hok₁, hstate₁⟩ := hfirst least (Nat.le_refl _)
  obtain ⟨hok₂, hstate₂⟩ := hsecond least (Nat.le_refl _)
  exact ⟨w₁, w₂, least, hok₁, hstate₁, hok₂, hstate₂, hprint ""⟩

end StyleTree
