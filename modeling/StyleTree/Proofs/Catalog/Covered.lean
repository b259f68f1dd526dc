import StyleTree.Proofs.Catalog.Adds

/-!
# Everything that needs a copy has one

When a node is left, its covers are settled: its parent has the copy that each cover is for.  Later
moves can take the copy away again, namely if it is pruned, but then some node above the parent
carries another vendor than the copy.  So there are two ways in which a cover is `Met`, and moves
keep "met" although they do not keep "has the copy".

* `Cover.Met`: the parent has the copy, or a copy would be out of place below the parent.
* `Move.covered`: moves keep that the covers of finalized nodes are met.
* `Completes.met`: at the end they are met at every node beneath the root.
* `catalog_covers`: hence after the catalog, wherever no other vendor is above, the copies are
  there.
-/

namespace StyleTree

open StyleTree.Tree Relation

section General

variable [Data]

namespace Cover

variable {t t' : Tree} {v p q x : Handle} {n m : Node} {b : Branch} {c : Cover} {cs : List Cover}

/-- There is a copy among the children of `p` for the node `n`, or a node at or above `p` carries
another vendor than the copy would. -/
def Met (c : Cover) (t : Tree) (p : Handle) (n : Node) : Prop :=
  t.hasChild p (c.existing n) = true ∨
    ∃ y o, t.Above p y ∧ t.vendorAt y = some o ∧ vendorOfName c.title ≠ some o

/-- What a cover asks for is a matter of the attributes of a node. -/
theorem existing_congr (h : m.alone = n.alone) : c.existing m = c.existing n := by
  have hsame : c.existing m.alone = c.existing n.alone := by rw [h]
  cases c <;> exact hsame

theorem Met.sprouts (ht : t.Linked) (hs : t.Sprouts p v b t') (h : c.Met t q n) : c.Met t' q n := by
  obtain hchild | ⟨y, o, habove, ho, hne⟩ := h
  · exact Or.inl (hs.hasChild ht hchild)
  · refine Or.inr ⟨y, o, habove.sprouts ht hs, ?_, hne⟩
    rw [(hs.retains ht).vendorAt (habove.live ht).2, ho]

/-- What answers the query of a tame cover has the name of the copy. -/
theorem Tame.name_of_accepts (hc : c.Tame) (hname : n.name = some c.key)
    (h : (c.existing n).accepts m = true) : m.name = some c.title := by
  have htitle : c.title ≠ "" := by
    intro he
    exact hc.vendor (he ▸ by decide +kernel)
  have hm := (kind_name_of_accepts h).2
  rw [prefixed_of_name hname] at hm
  exact hm.resolve_left htitle

/-- What carries the name of a copy carries its vendor. -/
theorem vendorAt_of_name (hlabelled : t.Labelled) (hx : t.get? x = some m)
    (hname : m.name = some c.title) : t.vendorAt x = vendorOfName c.title := by
  rw [vendorAt_of_get? hx, hlabelled x m hx, hname, Option.bind_some]

/-- A copy that is pruned was out of place. -/
theorem Met.prune {s : Stage} (hc : c.Tame) (hs : s.Valid) (hlabelled : s.tree.Labelled)
    (hx : s.Opens x) (hforeign : s.foreign x = true) (hname : n.name = some c.key)
    (hp : ¬ s.tree.Beneath p x) (h : c.Met s.tree p n) : c.Met (s.tree.prune x) p n := by
  obtain ⟨nx, hnx⟩ := hx.live hs
  -- what is above the parent stays there
  have hstays : ∀ y o, s.tree.Above p y → s.tree.vendorAt y = some o →
      vendorOfName c.title ≠ some o → c.Met (s.tree.prune x) p n := by
    intro y o habove ho hne
    refine Or.inr ⟨y, o, habove.prune hs.linked hnx hp, ?_, hne⟩
    rw [(Retains.prune hs.linked hnx).vendorAt (habove.live hs.linked).2, ho]
  obtain hchild | ⟨y, o, habove, ho, hne⟩ := h
  · obtain ⟨z, m, hl, hm, haccepts⟩ := hasChild_iff.mp hchild
    by_cases hzx : z = x
    · subst hzx
      obtain ⟨o', o, ho', ho, hne⟩ := isForeign_iff.mp hforeign
      rw [vendorAt_of_name hlabelled hm (hc.name_of_accepts hname haccepts)] at ho
      obtain ⟨y, hy, hvendor⟩ := exists_of_contextOf_eq_some ho'
      have hzy := hx.trail.beneath_of_mem hs.linked (List.mem_cons_of_mem _ hy)
      have hzne : z ≠ y := by
        rintro rfl
        exact hx.trail.notMem hs.linked hy
      have hpy := hzy.parent hzne (hs.linked.hangs_of_lists p z hl)
      refine hstays y o' ⟨hpy, hs.trail.beneath_root hs.linked hy⟩ hvendor ?_
      rw [ho]
      exact fun he => hne (Option.some.inj he)
    · obtain ⟨m', hm', haccepts'⟩ := (Retains.prune hs.linked hnx).exists_accepts hm haccepts
      exact Or.inl (hasChild_iff.mpr
        ⟨z, m', (lists_prune hs.linked hnx).mpr ⟨hl, hp, hzx⟩, hm', haccepts'⟩)
  · exact hstays y o habove ho hne

end Cover

/-! ## Moves -/

variable {cs : List Cover} {s s' : Stage} {t : Tree}

/-- The covers of finalized nodes are met. -/
def Stage.Covered (cs : List Cover) (s : Stage) : Prop :=
  ∀ z ∈ s.finalized, ∀ n p, s.tree.get? z = some n → n.parent = some p →
    ∀ c ∈ cs, n.kind = c.kind → n.name = some c.key → c.Met s.tree p n

/-- A node that hangs somewhere after a move hung there before the move, with the same
attributes. -/
theorem Move.get?_old (h : Move cs s s') (hs : s.Valid) {z p : Handle} {n' : Node}
    (hz : ∃ n, s.tree.get? z = some n) (hn' : s'.tree.get? z = some n') (hp : n'.parent = some p) :
    ∃ n, s.tree.get? z = some n ∧ n.alone = n'.alone ∧ n.parent = some p := by
  obtain ⟨n, hn⟩ := hz
  obtain ⟨m, hm, hparent⟩ := (h.retains hs).node z n hn
  obtain rfl : n' = m := Option.some.inj (hn'.symm.trans hm)
  refine ⟨n, hn, ((h.retains hs).alone z n n' hn hn').symm, ?_⟩
  rcases hparent with hparent | hparent
  · rw [← hparent, hp]
  · rw [hp] at hparent
    exact absurd hparent (by simp)

theorem Move.covered (hcs : ∀ c ∈ cs, c.Tame) (h : Move cs s s') (hs : s.Valid)
    (hr : s.tree.Regular) (hcovered : s.Covered cs) : s'.Covered cs := by
  -- for nodes that were finalized before, what the cover asks for is what it asked for
  have hold : (∀ z ∈ s.finalized, ∀ n p, s.tree.get? z = some n → s'.tree.Hangs z p →
      ∀ c ∈ cs, n.name = some c.key → c.Met s.tree p n → c.Met s'.tree p n) →
      ∀ z ∈ s.finalized, ∀ n p, s'.tree.get? z = some n → n.parent = some p →
        ∀ c ∈ cs, n.kind = c.kind → n.name = some c.key → c.Met s'.tree p n := by
    intro hstep z hz n' p hn' hp c hc hkind hname
    obtain ⟨n, hn, halone, hparent⟩ := h.get?_old hs (hs.live z hz) hn' hp
    obtain ⟨hkind', hname', -⟩ := Node.mk.inj halone
    have hmet := hcovered z hz n p hn hparent c hc (hkind'.trans hkind) (hname'.trans hname)
    have hmet' := hstep z hz n p hn ⟨n', hn', hp⟩ c hc (hname'.trans hname) hmet
    unfold Cover.Met at hmet' ⊢
    rwa [← Cover.existing_congr halone]
  cases h with
  | enter => exact hcovered
  | @prune x hx hforeign =>
    obtain ⟨nx, hnx⟩ := hx.live hs
    refine hold fun z hz n p hn hhangs c hc hname hmet => ?_
    obtain ⟨hhangs, hzx⟩ := (hangs_prune hs.linked hnx).mp hhangs
    refine hmet.prune (hcs c hc) hs hr.labelled hx hforeign hname fun hpx => hzx ?_
    exact (Beneath.of_hangs hhangs).trans hpx
  | sprout _ _ _ hgrows =>
    exact hold fun z hz n p hn hhangs c hc hname hmet => hmet.sprouts hs.linked hgrows.sprouts
  | @leave v rest hpath hdone hsettled =>
    intro z hz n p hn hp c hc hkind hname
    rcases Std.HashSet.mem_insert.mp hz with he | hz
    · obtain rfl := eq_of_beq he
      obtain ⟨d, -, rfl, hd⟩ := hs.linked.exists_branch? hn
      obtain rfl : n = d.node := Option.some.inj (hn.symm.trans hd.get?)
      have hhandles : c.Handles d.node := ⟨hkind, Or.inl hname⟩
      have hbeneath := hs.trail.beneath_root hs.linked (hpath ▸ List.mem_cons_self ..)
      have hspec := hr.plain.toSpec hs.linked hd hbeneath (hhandles.ne_root hs.rooted hn)
      exact Or.inl (hsettled c hc d p hd rfl hspec hhandles hp)
    · exact hcovered z hz n p hn hp c hc hkind hname

/-- At the end of a walk over a regular tree, covers are met at every node beneath the root. -/
theorem Completes.met (hcs : ∀ c ∈ cs, c.Tame) (ht : t.Regular) (h : Completes cs t s)
    {x p : Handle} {n : Node} {c : Cover} (hx : s.tree.Beneath x s.tree.root)
    (hn : s.tree.get? x = some n) (hp : n.parent = some p) (hc : c ∈ cs) (hkind : n.kind = c.kind)
    (hname : n.name = some c.key) : c.Met s.tree p n := by
  have hstart := Stage.valid_start ht.linked ht.rooted
  have hcovered : s.Covered cs :=
    h.moves.induction hstart (fun z hz => absurd hz Std.HashSet.not_mem_empty)
      fun _ _ hmoves hu hmove _ hc => hmove.covered hcs hu (hmoves.regular hcs hstart ht) hc
  exact hcovered x (h.mem_finalized ht.linked ht.rooted hx) n p hn hp c hc hkind hname

/-! ## The catalog -/

/-- No node above `x` carries another vendor than this one. -/
def Tree.OnlyAbove (t : Tree) (vendor : String) (x : Handle) : Prop :=
  ∀ y n o, t.Beneath x y → y ≠ x → t.get? y = some n → n.vendor = some o → o = vendor

theorem Tree.Linked.onlyAbove {vendor : String} {x : Handle} (ht : t.Linked)
    (h : ∀ e ∈ t.lineage x, e.2.vendor = none ∨ e.2.vendor = some vendor) :
    t.OnlyAbove vendor x := by
  intro y n o hxy _ hn ho
  rcases h (y, n) (ht.mem_lineage_iff.mpr ⟨hxy, hn⟩) with hnone | hsome
  · rw [hnone] at ho
    exact absurd ho (by simp)
  · exact Option.some.inj (ho.symm.trans hsome)

/-- Old nodes get no new nodes above them, so no new vendors either. -/
theorem Tree.Retains.onlyAbove {t' : Tree} {vendor : String} {x : Handle} (h : Retains t t')
    (ht : t.Linked) (hx : ∃ n, t.get? x = some n) (honly : t.OnlyAbove vendor x) :
    t'.OnlyAbove vendor x := by
  intro y n o hxy hne hn ho
  obtain ⟨m, hm⟩ := h.toKept.live_of_beneath ht hx hxy ⟨n, hn⟩
  obtain ⟨-, -, hvendor, -⟩ := Node.mk.inj (h.alone y m n hm hn)
  exact honly y m o (h.toKept.beneath ht hx hxy) hne hm (hvendor.symm.trans ho)

/-- Where the vendor of the copy is in place, the copy is there. -/
theorem Completes.exists_copy (hcs : ∀ c ∈ cs, c.Tame) (ht : t.Regular) (h : Completes cs t s)
    {x : Handle} {n : Node} {c : Cover} {vendor : String} (hx : s.tree.Beneath x s.tree.root)
    (hn : s.tree.get? x = some n) (hc : c ∈ cs) (hkind : n.kind = c.kind)
    (hname : n.name = some c.key) (hvendor : vendorOfName c.title = some vendor)
    (habove : s.tree.OnlyAbove vendor x) :
    ∃ p y m, n.parent = some p ∧ s.tree.Lists p y ∧ s.tree.get? y = some m ∧ m.kind = c.kind ∧
      m.name = some c.title ∧ (c.existing n).accepts m = true := by
  have hs := h.valid ht.linked ht.rooted
  have hhandles : c.Handles n := ⟨hkind, Or.inl hname⟩
  obtain ⟨p, hxp, -⟩ := hx.hangs_of_ne (hhandles.ne_root hs.rooted hn)
  obtain ⟨m, hm, hp⟩ := hxp
  obtain rfl : n = m := Option.some.inj (hn.symm.trans hm)
  rcases h.met hcs ht hx hn hp hc hkind hname with hchild | hother
  · obtain ⟨y, m, hl, hm, haccepts⟩ := hasChild_iff.mp hchild
    exact ⟨p, y, m, hp, hl, hm, (Cover.kind_name_of_accepts haccepts).1,
      (hcs c hc).name_of_accepts hname haccepts, haccepts⟩
  · obtain ⟨y, o, ⟨hpy, hy⟩, ho, hne⟩ := hother
    obtain ⟨r, hr⟩ := hs.linked.root
    obtain ⟨ny, hny⟩ := Linked.live_of_beneath hy hr
    have hyx : y ≠ x := by
      rintro rfl
      exact hs.linked.not_beneath_of_hangs ⟨n, hn, hp⟩ hpy
    rw [vendorAt_of_get? hny] at ho
    have hxy := (Beneath.of_hangs ⟨n, hn, hp⟩).trans hpy
    rw [habove y ny o hxy hyx hny ho] at hne
    exact absurd hvendor hne

/-- The catalog can be applied to every planted tree.  After it, wherever a node is beneath the root
that needs a copy for a vendor, and no node above it carries another vendor, the copy is beside it:
for keyframes with a prelude one with the same prelude, for each of two vendors, and for transitions
one of the name. -/
theorem catalog_covers {ι : Type} (support : Option Targets) {w : Workspace ι}
    (hw : w.tree.Planted) :
    let run := fun (steps : Nat) => (Plan.apply ⟨Catalog.all, support⟩ steps).run w
    (∃ least, ∀ steps, least ≤ steps → (run steps).result = .ok ()) ∧
    ∀ steps, (run steps).result = .ok () →
      let t := (run steps).state.tree
      ∀ x ∈ t.reached, ∀ n, t.get? x = some n →
        (n.kind = .atRule → n.name = some "keyframes" → ∀ text, n.value = some text → text ≠ "" →
          ∀ affix vendor native, (affix, vendor, native) ∈
              [("-webkit-", "webkit", Catalog.webkitKeyframes),
                ("-moz-", "moz", Catalog.mozKeyframes)] →
            gateOpen support (some native) = true → t.OnlyAbove vendor x →
            ∃ p y m, n.parent = some p ∧ t.Lists p y ∧ t.get? y = some m ∧ m.kind = .atRule ∧
              m.name = some (affix ++ "keyframes") ∧ m.value = some text) ∧
        (n.kind = .declaration → n.name = some "transition" →
          gateOpen support (some Catalog.webkitTransition) = true → t.OnlyAbove "webkit" x →
          ∃ p y m, n.parent = some p ∧ t.Lists p y ∧ t.get? y = some m ∧ m.kind = .declaration ∧
            m.name = some "-webkit-transition") := by
  intro run
  have hr := hw.regular
  obtain ⟨_, least, hrun⟩ := exists_apply_catalog support hr
  refine ⟨⟨least, fun steps hsteps => (hrun steps hsteps).1⟩, fun steps hok => ?_⟩
  intro t x hx n hn
  obtain ⟨s, hcompletes, hs : s.tree = t⟩ := completes_of_apply_catalog hr.linked hr.rooted hok
  rw [← hs] at hx hn ⊢
  have hbeneath : s.tree.Beneath x s.tree.root :=
    (hcompletes.valid hr.linked hr.rooted).linked.mem_reached_iff.mp hx
  have hcopy := fun (c : Cover) hc hkind hname (vendor : String) hvendor habove =>
    hcompletes.exists_copy (c := c) (Cover.tame_needed_catalog support)
      hr hbeneath hn hc hkind hname (hvendor : _ = some vendor) habove
  constructor
  · intro hkind hname text hvalue htext affix vendor native hmem hgate habove
    have hcover : Cover.atRule "keyframes" affix native ∈
      Cover.needed support Cover.catalog.flatten ∧
        vendorOfName (affix ++ "keyframes") = some vendor := by
      simp only [List.mem_cons, List.not_mem_nil, or_false, Prod.mk.injEq] at hmem
      rcases hmem with ⟨rfl, rfl, rfl⟩ | ⟨rfl, rfl, rfl⟩
      · exact ⟨List.mem_filter.mpr ⟨by simp [Cover.catalog], hgate⟩, by decide +kernel⟩
      · exact ⟨List.mem_filter.mpr ⟨by simp [Cover.catalog], hgate⟩, by decide +kernel⟩
    obtain ⟨p, y, m, hp, hl, hm, hkind', hname', haccepts⟩ :=
      hcopy _ hcover.1 hkind hname vendor hcover.2 habove
    exact ⟨p, y, m, hp, hl, hm, hkind', hname', Cover.value_of_accepts haccepts hvalue htext⟩
  · intro hkind hname hgate habove
    have hc : Cover.declaration "transition" "-webkit-" Catalog.webkitTransition ∈
        Cover.needed support Cover.catalog.flatten :=
      List.mem_filter.mpr ⟨by simp [Cover.catalog], hgate⟩
    obtain ⟨p, y, m, hp, hl, hm, hkind', hname', -⟩ :=
      hcopy _ hc hkind hname "webkit" (by decide +kernel) habove
    exact ⟨p, y, m, hp, hl, hm, hkind', hname'⟩

end General

/-- The declaration of the other vendor is the only node that has to be pruned. -/
theorem Tree.eq_of_pruned_nested {p : Handle} (hp : Tree.nested.Pruned none Tree.nested.root p) :
    p = ⟨5, 1⟩ := by
  have hlinked := planted_nested.regular.linked
  obtain ⟨r, hr⟩ := hlinked.root
  obtain ⟨b, hb, hid, hshows⟩ := hlinked.exists_branch? hr
  have hpruned : (Tree.nested.branch? Tree.nested.root).map (Branch.pruned none) =
      some [⟨5, 1⟩] := by
    decide +kernel
  rw [hb, Option.map_some, Option.some.injEq] at hpruned
  rw [← hid, ← hshows.mem_pruned_iff hlinked, hpruned] at hp
  exact List.mem_singleton.mp hp

/-- The keyframes within the keyframes of one vendor get a copy for this vendor. -/
theorem catalog_covers_nested :
    ∃ steps,
      let o := (Plan.apply ⟨Catalog.all, none⟩ steps).run (⟨Tree.nested, ()⟩ : Workspace Unit)
      o.result = .ok () ∧ ∃ y m, o.state.tree.Lists ⟨2, 1⟩ y ∧ o.state.tree.get? y = some m ∧
        m.kind = .atRule ∧ m.name = some "-webkit-keyframes" ∧ m.value = some "b" := by
  have hlinked := planted_nested.regular.linked
  have hrooted := planted_nested.regular.rooted
  obtain ⟨⟨steps, hrun⟩, hcovers⟩ :=
    catalog_covers none (w := (⟨Tree.nested, ()⟩ : Workspace Unit)) planted_nested
  have hok := hrun steps (Nat.le_refl _)
  obtain ⟨s, hcompletes, hs⟩ := completes_of_apply_catalog hlinked hrooted hok
  have hnode : (Tree.nested.get? ⟨3, 1⟩).map (fun n => (n.kind, n.name, n.value, n.parent)) =
      some (.atRule, some "keyframes", some "b", some ⟨2, 1⟩) := by decide +kernel
  obtain ⟨n, hn, hattributes⟩ := Option.map_eq_some_iff.mp hnode
  obtain ⟨hkind, hname, hvalue, hparent⟩ : n.kind = .atRule ∧ n.name = some "keyframes" ∧
      n.value = some "b" ∧ n.parent = some ⟨2, 1⟩ := by simpa using hattributes
  obtain ⟨r, hr⟩ := hlinked.root
  have hin : Tree.nested.Beneath ⟨3, 1⟩ Tree.nested.root :=
    (hlinked.isAbove_iff hr).mp (by decide +kernel)
  have hout : ∀ p, Tree.nested.Pruned none Tree.nested.root p → ¬ Tree.nested.Beneath ⟨3, 1⟩ p := by
    intro p hp
    obtain ⟨m, hm⟩ := Option.isSome_iff_exists.mp
      (by decide +kernel : (Tree.nested.get? ⟨5, 1⟩).isSome = true)
    rw [eq_of_pruned_nested hp, ← hlinked.isAbove_iff hm]
    decide +kernel
  -- so the keyframes are still there after the walk, with the same nodes above them
  obtain ⟨hbeneath, n', hn', halone, hparent'⟩ :=
    hcompletes.exists_get?_of_not_pruned hlinked hrooted hin hn hout
  obtain ⟨hkind', hname', -, hvalue', -⟩ := Node.mk.inj halone
  have honly : s.tree.OnlyAbove "webkit" ⟨3, 1⟩ :=
    (hcompletes.retains hlinked hrooted).onlyAbove hlinked ⟨n, hn⟩
      (hlinked.onlyAbove (by decide +kernel))
  have hreached := (hcompletes.valid hlinked hrooted).linked.mem_reached_iff.mpr hbeneath
  rw [hs] at hreached hn' honly
  obtain ⟨hkeyframes, -⟩ := hcovers steps hok ⟨3, 1⟩ hreached n' hn'
  obtain ⟨p, y, m, hp, hl, hm, hrest⟩ := hkeyframes (hkind'.trans hkind) (hname'.trans hname) "b"
    (hvalue'.trans hvalue) (by decide) "-webkit-" "webkit" Catalog.webkitKeyframes
    (List.mem_cons_self ..) rfl honly
  obtain rfl : p = ⟨2, 1⟩ := Option.some.inj (hp.symm.trans (hparent'.trans hparent))
  exact ⟨steps, hok, y, m, hl, hm, hrest⟩

end StyleTree
