import StyleTree.Proofs.Catalog.Planted

/-!
# Vendors agree at the end

A copy is read back from a text, so it may hold nodes of other vendors than its own, and handlers
that run inside it add more of them.  All of these are met by the walk before it ends.

`Harmony` is what moves keep: a node that is finalized agrees with every node above it.  When a node
is left, the nodes above it are those that are being visited, and all vendors on that way agree.
Later moves give no old node another way up and no other vendor, so they take nothing away from
this.

* `Completes.not_clashes`: at the end no node clashes with one above it.
* `vendor_eq_of_beneath`: hence whatever covers are applied, vendors agree along every way down.
-/

namespace StyleTree

open StyleTree.Tree

section General

variable [Data]

namespace Tree

variable {t t' : Tree} {x y p v c : Handle} {n : Node} {b : Branch}

/-- The node `y` is on the way from the root down to `x`. -/
def Above (t : Tree) (x y : Handle) : Prop :=
  t.Beneath x y ∧ t.Beneath y t.root

/-- Two nodes carry different vendors. -/
def Clash (t : Tree) (x y : Handle) : Prop :=
  ∃ o o', t.vendorAt x = some o ∧ t.vendorAt y = some o' ∧ o ≠ o'

/-- A node carries another vendor than a node above it. -/
def Clashes (t : Tree) (x : Handle) : Prop :=
  ∃ y, t.Above x y ∧ t.Clash x y

theorem Above.live (ht : t.Linked) (h : t.Above x y) :
    (∃ n, t.get? x = some n) ∧ ∃ n, t.get? y = some n := by
  obtain ⟨r, hr⟩ := ht.root
  exact ⟨Linked.live_of_beneath (h.1.trans h.2) hr, Linked.live_of_beneath h.2 hr⟩

/-- A way down to a node that is not pruned stays. -/
theorem Above.prune (ht : t.Linked) (hc : t.get? c = some n) (hx : ¬ t.Beneath x c)
    (h : t.Above x y) : (t.prune c).Above x y := by
  refine ⟨(beneath_prune ht hc hx).mpr h.1, ?_⟩
  rw [root_prune]
  exact (beneath_prune ht hc fun hyc => hx (h.1.trans hyc)).mpr h.2

theorem Above.sprouts (ht : t.Linked) (hs : t.Sprouts p v b t') (h : t.Above x y) :
    t'.Above x y := by
  obtain ⟨hx, hy⟩ := h.live ht
  refine ⟨(hs.beneath_iff ht hx).mpr h.1, ?_⟩
  rw [hs.steps.root]
  exact (hs.beneath_iff ht hy).mpr h.2

theorem Retains.clash_iff (h : Retains t t') (hx : ∃ n, t.get? x = some n)
    (hy : ∃ n, t.get? y = some n) : t'.Clash x y ↔ t.Clash x y := by
  unfold Clash
  rw [h.vendorAt hx, h.vendorAt hy]

/-- Where attributes are kept, an old node clashes with a node above it only if it did before. -/
theorem Retains.clashes (ht : t.Linked) (ht' : t'.Linked) (h : Retains t t')
    (hx : ∃ n, t.get? x = some n) (hclash : t'.Clashes x) : t.Clashes x := by
  obtain ⟨y, habove, hclash⟩ := hclash
  have hy := h.toKept.live_of_beneath ht hx habove.1 (habove.live ht').2
  refine ⟨y, ⟨h.toKept.beneath ht hx habove.1, ?_⟩, (h.clash_iff hx hy).mp hclash⟩
  exact h.root ▸ h.toKept.beneath ht hy habove.2

theorem Clashes.prune (ht : t.Linked) (hc : t.get? c = some n) (hx : ¬ t.Beneath x c)
    (h : t.Clashes x) : (t.prune c).Clashes x := by
  obtain ⟨y, habove, hclash⟩ := h
  obtain ⟨hxlive, hylive⟩ := habove.live ht
  exact ⟨y, habove.prune ht hc hx, ((Retains.prune ht hc).clash_iff hxlive hylive).mpr hclash⟩

theorem Clashes.sprouts (ht : t.Linked) (hs : t.Sprouts p v b t') (h : t.Clashes x) :
    t'.Clashes x := by
  obtain ⟨y, habove, hclash⟩ := h
  obtain ⟨hx, hy⟩ := habove.live ht
  exact ⟨y, habove.sprouts ht hs, ((hs.retains ht).clash_iff hx hy).mpr hclash⟩

end Tree

/-- A node that is finalized clashes with no node above it. -/
def Stage.Harmony (s : Stage) : Prop :=
  ∀ x ∈ s.finalized, ¬ s.tree.Clashes x

variable {cs : List Cover} {s s' : Stage} {t : Tree}

/-- The vendors on a way agree. -/
theorem Stage.Valid.not_clash {x y : Handle} (hs : s.Valid) (hx : x ∈ s.path) (hy : y ∈ s.path) :
    ¬ s.tree.Clash x y := by
  rintro ⟨o, o', ho, ho', hne⟩
  exact hne (Option.some.inj ((hs.agrees x hx o ho).symm.trans (hs.agrees y hy o' ho')))

theorem Move.harmony (h : Move cs s s') (hs : s.Valid) (hh : s.Harmony) : s'.Harmony := by
  have hold : ∀ x ∈ s.finalized, ¬ s'.tree.Clashes x := fun x hx hclash =>
    hh x hx ((h.retains hs).clashes hs.linked (h.valid hs).linked (hs.live x hx) hclash)
  cases h with
  | enter | prune | sprout => exact hold
  | @leave v rest hpath hdone hsettled =>
    intro x hx
    rcases Std.HashSet.mem_insert.mp hx with he | hx
    · obtain rfl := eq_of_beq he
      rintro ⟨y, habove, hclash⟩
      have htrail : s.tree.Trail (v :: rest) := hpath ▸ hs.trail
      have hmem : y ∈ s.path := hpath ▸ htrail.mem_of_beneath hs.linked habove.1 habove.2
      exact hs.not_clash (hpath ▸ List.mem_cons_self ..) hmem hclash
    · exact hold x hx

/-- At the end of a walk no vendors clash. -/
theorem Completes.not_clashes (ht : t.Linked) (hroot : t.Rooted) (h : Completes cs t s)
    (x : Handle) : ¬ s.tree.Clashes x := by
  rintro ⟨y, habove, hclash⟩
  have hharmony : s.Harmony :=
    h.moves.induction (Stage.valid_start ht hroot) (fun x hx => absurd hx Std.HashSet.not_mem_empty)
      fun _ _ _ hu hmove _ hh => hmove.harmony hu hh
  exact hharmony x (h.mem_finalized ht hroot (habove.1.trans habove.2)) ⟨y, habove, hclash⟩

/-- Whatever covers are applied to a tree, of two nodes that the root has beneath it at the end, one
above the other, both carry the same vendor if both carry one. -/
theorem vendor_eq_of_beneath {ι : Type} {support : Option Targets} {ms : List (List Cover)}
    {w : Workspace ι} (hw : w.tree.Reachable) {steps : Nat}
    (hok : (((Cover.plan support ms).apply steps).run w).result = .ok ()) :
    let t := (((Cover.plan support ms).apply steps).run w).state.tree
    ∀ x ∈ t.reached, ∀ y ∈ t.reached, t.Beneath x y → ∀ m n, t.get? x = some m → t.get? y = some n →
      ∀ o o', m.vendor = some o → n.vendor = some o' → o = o' := by
  intro t x hx y hy hxy m n hm hn o o' ho ho'
  obtain ⟨s, hcompletes, hs : s.tree = t⟩ := completes_of_apply hw.linked hw.rooted hok
  have hlinked : t.Linked := hs ▸ (hcompletes.valid hw.linked hw.rooted).linked
  by_contra hne
  refine hcompletes.not_clashes hw.linked hw.rooted x ⟨y, ?_, o, o', ?_, ?_, hne⟩
  · rw [hs]
    exact ⟨hxy, hlinked.mem_reached_iff.mp hy⟩
  · rw [hs, vendorAt_of_get? hm, ho]
  · rw [hs, vendorAt_of_get? hn, ho']

end General

/-- In a tree with two vendors on one way down, they agree after the catalog. -/
theorem vendor_eq_of_beneath_nested :
    Tree.nested.Beneath ⟨5, 1⟩ ⟨2, 1⟩ ∧ Tree.nested.Clash ⟨5, 1⟩ ⟨2, 1⟩ ∧
    ∃ steps,
      let o := ((Cover.plan none Cover.catalog).apply steps).run
        (⟨Tree.nested, ()⟩ : Workspace Unit)
      o.result = .ok () ∧ ∀ x ∈ o.state.tree.reached, ∀ y ∈ o.state.tree.reached,
        o.state.tree.Beneath x y →
          ∀ m n, o.state.tree.get? x = some m → o.state.tree.get? y = some n →
            ∀ v v', m.vendor = some v → n.vendor = some v' → v = v' := by
  have hreachable := planted_nested.reachable
  obtain ⟨_, steps, hrun⟩ := exists_apply_catalog none (w := (⟨Tree.nested, ()⟩ : Workspace Unit))
    planted_nested.regular
  have hok := (hrun steps (Nat.le_refl _)).1
  have habove : Tree.nested.isAbove ⟨2, 1⟩ ⟨5, 1⟩ = true := by decide +kernel
  have hlive : ∃ n, Tree.nested.get? ⟨2, 1⟩ = some n :=
    Option.isSome_iff_exists.mp (by decide +kernel)
  obtain ⟨n, hn⟩ := hlive
  refine ⟨(hreachable.linked.isAbove_iff hn).mp habove, ?_, steps, hok, ?_⟩
  · exact ⟨"moz", "webkit", by decide +kernel, by decide +kernel, by decide⟩
  · exact vendor_eq_of_beneath hreachable hok

end StyleTree
