import StyleTree.Proofs.Catalog.Pure
import StyleTree.Proofs.Walk.Pruning

/-!
# Covers only add

Two walks over one tree are compared, one with covers and one without.  The first puts branches into
the lists that it goes through and prunes some of them again, but the nodes that were there before
come out of both walks alike.

The tree that a walk without handlers leaves is the old one cut at the pruned nodes.  So it is
enough to follow the first walk and to look at old nodes only.

* `Overlays t ps t'`: seen from the nodes of `t`, the tree `t'` is `t` cut at `ps`, with new
  children in between.  Each move keeps this, with one more cut if an old node is pruned
  (`Move.overlays`).
* `Stage.pruned_of_opens`: the old nodes that a move prunes are `Pruned` in the tree at the
  beginning.
* `Completes.mem_cuts_iff`: at the end these are all, because no vendors clash any more.
* `apply_eq_on_old_nodes`: hence the two walks agree.
-/

namespace StyleTree

open StyleTree.Tree Relation Walk

section General

variable [Data]

namespace Tree

variable {t t' t'' : Tree} {x y p c v id : Handle} {n m : Node} {b : Branch} {ps qs : List Handle}

/-! ## Routes and ways down -/

theorem contains_iff : t.contains x = true ↔ ∃ n, t.get? x = some n :=
  Arena.contains_iff

theorem Route.snoc {path : List Node} (h : t.Route id p path) (hp : t.get? p = some n)
    (hc : c ∈ n.children) : t.Route id c (path ++ [n]) := by
  induction h with
  | here id => exact .into hp hc (.here c)
  | into hid hd _ ih => exact .into hid hd (ih hp)

/-- The nodes on a route are nodes above its end. -/
theorem Route.exists_of_mem (ht : t.Linked) {path : List Node} (h : t.Route id x path)
    (hm : m ∈ path) : ∃ y, t.get? y = some m ∧ t.Beneath x y ∧ t.Beneath y id := by
  induction h with
  | here => exact absurd hm (by simp)
  | @into id c x n path hid hc hroute ih =>
    have hci := Beneath.of_hangs (ht.hangs_of_lists id c ⟨n, hid, hc⟩)
    rcases List.mem_cons.mp hm with rfl | hm
    · exact ⟨id, hid, (hroute.beneath ht).trans hci, Beneath.refl t id⟩
    · obtain ⟨y, hy, hxy, hyc⟩ := ih hm
      exact ⟨y, hy, hxy, hyc.trans hci⟩

/-- A way down from the root is a route, and its context is the first vendor on the route. -/
theorem Trail.exists_route {rest : List Handle} (h : t.Trail (x :: rest)) :
    ∃ path, t.Route t.root x path ∧ path.findSome? Node.vendor = t.contextOf rest := by
  generalize hl : x :: rest = l at h
  induction h generalizing x rest with
  | nil => exact absurd hl (by simp)
  | root =>
    obtain ⟨rfl, rfl⟩ := List.cons.inj hl
    exact ⟨[], .here _, rfl⟩
  | @into c p rest' _ hc ih =>
    obtain ⟨rfl, rfl⟩ := List.cons.inj hl
    obtain ⟨path, hroute, hcontext⟩ := ih rfl
    obtain ⟨n, hn, hmem⟩ := hc
    refine ⟨path ++ [n], hroute.snoc hn hmem, ?_⟩
    rw [List.findSome?_append, hcontext, contextOf_cons, vendorAt_of_get? hn]
    cases t.contextOf rest' <;> cases hv : n.vendor <;> simp [hv]

/-- A foreign node clashes with a node above it. -/
theorem Foreign.clashes (ht : t.Linked) (h : t.Foreign none t.root x) : t.Clashes x := by
  obtain ⟨path, n, o', o, hroute, hn, hcontext, ho, hne⟩ := h
  obtain ⟨m, hm, hvendor⟩ := List.exists_of_findSome?_eq_some hcontext
  obtain ⟨y, hy, hxy, hyid⟩ := hroute.exists_of_mem ht hm
  refine ⟨y, ⟨hxy, hyid⟩, o, o', ?_, ?_, hne⟩
  · rw [vendorAt_of_get? hn, ho]
  · rw [vendorAt_of_get? hy, hvendor]

/-! ## Trees with new children in between -/

theorem Retains.cut (ht : t.Linked) (hps : ∀ p ∈ ps, ∃ n, t.get? p = some n) :
    Retains t (t.cut ps) := by
  induction ps generalizing t with
  | nil => exact Retains.refl t
  | cons p ps ih =>
    obtain ⟨n, hn⟩ := hps p (List.mem_cons_self ..)
    have hrest : ∀ q ∈ ps, ∃ m, (t.prune p).get? q = some m := fun q hq =>
      live_prune ht hn (hps q (List.mem_cons_of_mem _ hq))
    exact (Retains.prune ht hn).trans (ih (ht.prune hn) hrest)

/-- Cuts make no nodes. -/
theorem live_of_live_cut (ht : t.Linked) (hps : ∀ p ∈ ps, ∃ n, t.get? p = some n)
    (hx : ∃ n, (t.cut ps).get? x = some n) : ∃ n, t.get? x = some n := by
  obtain ⟨n, hn⟩ := hx
  by_cases hcut : ∃ p ∈ ps, t.Beneath x p
  · obtain ⟨p, hp, hxp⟩ := hcut
    rw [get?_cut_of_beneath ht hps hp hxp] at hn
    obtain ⟨m, hm, -⟩ := Option.map_eq_some_iff.mp hn
    exact ⟨m, hm⟩
  · rw [get?_cut_of_not_beneath ht hps fun p hp hxp => hcut ⟨p, hp, hxp⟩] at hn
    obtain ⟨m, hm, -⟩ := Option.map_eq_some_iff.mp hn
    exact ⟨m, hm⟩

/-- The order of the cuts does not matter, nor how often they are made. -/
theorem get?_cut_congr (ht : t.Linked) (hps : ∀ p ∈ ps, ∃ n, t.get? p = some n)
    (hsame : ∀ p, p ∈ ps ↔ p ∈ qs) (x : Handle) : (t.cut ps).get? x = (t.cut qs).get? x := by
  have hqs : ∀ p ∈ qs, ∃ n, t.get? p = some n := fun p hp => hps p ((hsame p).mpr hp)
  by_cases hx : ∃ p ∈ ps, t.Beneath x p
  · obtain ⟨p, hp, hxp⟩ := hx
    rw [get?_cut_of_beneath ht hps hp hxp, get?_cut_of_beneath ht hqs ((hsame p).mp hp) hxp]
  · have hx' : ∀ p ∈ ps, ¬ t.Beneath x p := fun p hp hxp => hx ⟨p, hp, hxp⟩
    rw [get?_cut_of_not_beneath ht hps hx',
      get?_cut_of_not_beneath ht hqs fun p hp => hx' p ((hsame p).mpr hp)]
    simp only [hsame]

/-- The nodes of `t` are linked in `t'` as they are in `t` cut at `ps`, apart from new children. -/
structure Overlays (t : Tree) (ps : List Handle) (t' : Tree) : Prop where
  cuts : ∀ p ∈ ps, ∃ n, t.get? p = some n
  retains : Retains t t'
  links : ∀ x n, (t.cut ps).get? x = some n → ∃ n', t'.get? x = some n' ∧
    n'.parent = n.parent ∧ n'.children.filter t.contains = n.children

namespace Overlays

/-- Nothing has been cut and nothing has been added yet. -/
theorem refl (ht : t.Linked) : Overlays t [] t where
  cuts := by simp
  retains := Retains.refl t
  links := by
    intro x n hn
    refine ⟨n, hn, rfl, List.filter_eq_self.mpr fun c hc => ?_⟩
    exact contains_iff.mpr (ht.hangs_of_lists x c ⟨n, hn, hc⟩).live

/-- The ways up from an old node are those that the cuts leave. -/
theorem beneath_iff (ht : t.Linked) (h : Overlays t ps t')
    (hx : ∃ n, t.get? x = some n) (hy : ∃ n, t.get? y = some n) :
    t'.Beneath x y ↔ (t.cut ps).Beneath x y := by
  have hhangs : ∀ a q, (∃ n, t.get? a = some n) → (t'.Hangs a q ↔ (t.cut ps).Hangs a q) := by
    intro a q ha
    obtain ⟨n, hn⟩ := (Retains.cut ht h.cuts).toKept.live ha
    obtain ⟨n', hn', hparent, -⟩ := h.links a n hn
    unfold Hangs
    simp only [hn, hn', Option.some.injEq, exists_eq_left', hparent]
  constructor
  · intro hb
    induction hb using ReflTransGen.head_induction_on with
    | refl => exact Beneath.refl _ _
    | @head a q haq hqy ih =>
      obtain ⟨m, hm⟩ := h.retains.toKept.live hy
      have hq := h.retains.toKept.live_of_beneath ht hx (Beneath.of_hangs haq)
        (Linked.live_of_beneath hqy hm)
      exact (Beneath.of_hangs ((hhangs a q hx).mp haq)).trans (ih hq)
  · intro hb
    refine ReflTransGen.mono ?_ x y hb
    exact fun a q haq => (hhangs a q (live_of_live_cut ht h.cuts haq.live)).mpr haq

/-- The ways up from an old node that is not cut off are the old ones. -/
theorem beneath_iff_of_not_beneath (ht : t.Linked) (h : Overlays t ps t')
    (hx : ∃ n, t.get? x = some n) (hy : ∃ n, t.get? y = some n) (hout : ∀ p ∈ ps, ¬ t.Beneath x p) :
    t'.Beneath x y ↔ t.Beneath x y :=
  (h.beneath_iff ht hx hy).trans (beneath_cut ht h.cuts hout)

/-- A branch of new nodes is one more child that is passed over. -/
theorem sprouts (h : Overlays t ps t') (ht' : t'.Linked) (hs : t'.Sprouts p v b t'') :
    Overlays t ps t'' where
  cuts := h.cuts
  retains := h.retains.trans (hs.retains ht')
  links := by
    intro x n hn
    obtain ⟨n', hn', hparent, hchildren⟩ := h.links x n hn
    by_cases hxp : x = p
    · subst hxp
      obtain ⟨np, left, right, hnp, hlist, hnp''⟩ := hs.beside
      obtain rfl : n' = np := Option.some.inj (hn'.symm.trans hnp)
      have hnew : t.contains b.id = false := by
        refine Bool.eq_false_iff.mpr fun hlive => ?_
        obtain ⟨m, hm⟩ := h.retains.toKept.live (contains_iff.mp hlive)
        rw [hs.fresh b.id (Branch.id_mem_handles b)] at hm
        exact absurd hm (by simp)
      refine ⟨_, hnp'', hparent, ?_⟩
      rw [← hchildren, hlist, List.filter_append, List.filter_cons_of_neg (by simp [hnew]),
        ← List.filter_append]
    · exact ⟨n', hs.frame x n' hn' hxp, hparent, hchildren⟩

/-- Where an old node is pruned there is one more cut. -/
theorem prune_old (h : Overlays t ps t') (ht : t.Linked) (ht' : t'.Linked)
    (hc : ∃ n, t.get? c = some n) : Overlays t (ps ++ [c]) (t'.prune c) := by
  obtain ⟨m, hm⟩ := (Retains.cut ht h.cuts).toKept.live hc
  obtain ⟨m', hm', -⟩ := h.links c m hm
  have hcut : t.cut (ps ++ [c]) = (t.cut ps).prune c := by rw [cut_append]; rfl
  refine ⟨?_, h.retains.trans (Retains.prune ht' hm'), fun x n hn => ?_⟩
  · intro p hp
    rcases List.mem_append.mp hp with hp | hp
    · exact h.cuts p hp
    · rwa [List.mem_singleton.mp hp]
  · rw [hcut] at hn
    have hx : ∃ k, (t.cut ps).get? x = some k := by
      rw [get?_prune (ht.cut h.cuts) hm] at hn
      obtain ⟨k, hk, -⟩ := Option.map_eq_some_iff.mp hn
      exact ⟨k, hk⟩
    obtain ⟨k, hk⟩ := hx
    obtain ⟨k', hk', hparent, hchildren⟩ := h.links x k hk
    have hiff := h.beneath_iff ht (live_of_live_cut ht h.cuts ⟨k, hk⟩) hc
    by_cases hxc : t'.Beneath x c
    · rw [get?_prune_of_beneath (ht.cut h.cuts) hm (hiff.mp hxc), hk] at hn
      obtain rfl := Option.some.inj hn
      rw [get?_prune_of_beneath ht' hm' hxc, hk']
      exact ⟨_, rfl, rfl, rfl⟩
    · rw [get?_prune_of_not_beneath (ht.cut h.cuts) hm fun hb => hxc (hiff.mpr hb), hk] at hn
      obtain rfl := Option.some.inj hn
      rw [get?_prune_of_not_beneath ht' hm' hxc, hk']
      refine ⟨_, rfl, hparent, ?_⟩
      show (k'.children.filter _).filter _ = k.children.filter _
      rw [List.filter_comm, hchildren]

/-- Where a new node is pruned nothing happens to old nodes. -/
theorem prune_new (h : Overlays t ps t') (ht : t.Linked) (ht' : t'.Linked)
    (hc : t'.get? c = some n) (hnew : ¬ ∃ n, t.get? c = some n) : Overlays t ps (t'.prune c) where
  cuts := h.cuts
  retains := h.retains.trans (Retains.prune ht' hc)
  links := by
    intro x k hk
    obtain ⟨k', hk', hparent, hchildren⟩ := h.links x k hk
    have hxc : ¬ t'.Beneath x c := fun hxc => hnew
      (h.retains.toKept.live_of_beneath ht (live_of_live_cut ht h.cuts ⟨k, hk⟩) hxc ⟨n, hc⟩)
    rw [get?_prune_of_not_beneath ht' hc hxc, hk']
    refine ⟨_, rfl, hparent, ?_⟩
    show (k'.children.filter _).filter _ = _
    rw [List.filter_comm, hchildren, List.filter_eq_self]
    intro d hd
    refine decide_eq_true ?_
    rintro rfl
    rw [← hchildren] at hd
    exact hnew (contains_iff.mp (List.mem_filter.mp hd).2)

end Overlays

end Tree

/-! ## Which old nodes are pruned -/

variable {cs : List Cover} {s s' : Stage} {t : Tree} {ps : List Handle}

/-- A way down that ends in an old node is an old way down. -/
theorem Tree.Retains.trail {t t' : Tree} {l : List Handle} (h : Retains t t') (ht : t.Linked)
    (ht' : t'.Linked) (hl : t'.Trail l) (hx : ∀ x ∈ l.head?, ∃ n, t.get? x = some n) :
    t.Trail l := by
  induction hl with
  | nil => exact .nil
  | root => exact h.root ▸ .root
  | @into c p rest _ hc ih =>
    have hhangs := ht'.hangs_of_lists p c hc
    have hclive := hx c rfl
    have hplive := h.toKept.live_of_beneath ht hclive (Beneath.of_hangs hhangs) hc.live
    obtain ⟨np, hnp⟩ := hplive
    refine .into (ih ?_) (ht.lists_of_hangs_of_live (h.toKept.hangs hclive hhangs) hnp)
    rintro x ⟨rfl⟩
    exact ⟨np, hnp⟩

/-- An old node that a walk comes to and that has to go is pruned in the old tree as well. -/
theorem Stage.pruned_of_opens {x : Handle} (hs : s.Valid) (ht : t.Linked) (h : Retains t s.tree)
    (hx : s.Opens x) (hforeign : s.foreign x = true) (hlive : ∃ n, t.get? x = some n) :
    t.Pruned none t.root x := by
  have htrail : t.Trail (x :: s.path) := h.trail ht hs.linked hx.trail fun y hy => by
    obtain rfl : x = y := Option.some.inj hy
    exact hlive
  have hvendor : ∀ y ∈ x :: s.path, s.tree.vendorAt y = t.vendorAt y := fun y hy =>
    h.vendorAt (htrail.live ht hy)
  obtain ⟨n, hn⟩ := hlive
  refine ⟨?_, fun y hy hxy hne hf => ?_⟩
  · obtain ⟨path, hroute, hcontext⟩ := htrail.exists_route
    obtain ⟨o', o, ho', ho, hne⟩ := isForeign_iff.mp hforeign
    rw [contextOf_congr fun y hy => hvendor y (List.mem_cons_of_mem _ hy), ← hcontext] at ho'
    rw [hvendor x (List.mem_cons_self ..), vendorAt_of_get? hn] at ho
    exact ⟨path, n, o', o, hroute, hn, ho', ho, hne⟩
  · -- everything above is being visited, and there all vendors agree
    obtain ⟨z, ⟨hyz, hz⟩, hclash⟩ := hf.clashes ht
    have hyx : y ∈ s.path := (List.mem_cons.mp (htrail.mem_of_beneath ht hxy hy)).resolve_left hne
    have hzx : z ∈ s.path := by
      refine (List.mem_cons.mp (htrail.mem_of_beneath ht (hxy.trans hyz) hz)).resolve_left ?_
      rintro rfl
      exact hne (ht.eq_of_beneath_of_beneath hyz hxy)
    have hlive : ∀ u ∈ s.path, ∃ n, t.get? u = some n := fun u hu =>
      htrail.live ht (List.mem_cons_of_mem _ hu)
    exact hs.not_clash hyx hzx ((h.clash_iff (hlive y hyx) (hlive z hzx)).mpr hclash)

/-- Moves leave the old nodes linked as they are in the old tree, cut at pruned nodes. -/
theorem Move.overlays (h : Move cs s s') (hs : s.Valid) (ht : t.Linked)
    (hover : Overlays t ps s.tree) (hps : ∀ p ∈ ps, t.Pruned none t.root p) :
    ∃ qs, Overlays t qs s'.tree ∧ ∀ p ∈ qs, t.Pruned none t.root p := by
  cases h with
  | enter | leave => exact ⟨ps, hover, hps⟩
  | sprout _ _ _ hgrows => exact ⟨ps, hover.sprouts hs.linked hgrows.sprouts, hps⟩
  | @prune x hx hforeign =>
    by_cases hlive : ∃ n, t.get? x = some n
    · refine ⟨ps ++ [x], hover.prune_old ht hs.linked hlive, fun p hp => ?_⟩
      rcases List.mem_append.mp hp with hp | hp
      · exact hps p hp
      · rw [List.mem_singleton.mp hp]
        exact Stage.pruned_of_opens hs ht hover.retains hx hforeign hlive
    · obtain ⟨n, hn⟩ := hx.live hs
      exact ⟨ps, hover.prune_new ht hs.linked hn hlive, hps⟩

theorem Completes.exists_overlays (ht : t.Linked) (hroot : t.Rooted) (h : Completes cs t s) :
    ∃ ps, Overlays t ps s.tree ∧ ∀ p ∈ ps, t.Pruned none t.root p := by
  refine h.moves.induction (P := fun u => ∃ ps, Overlays t ps u.tree ∧
    ∀ p ∈ ps, t.Pruned none t.root p) (Stage.valid_start ht hroot) ?_ ?_
  · exact ⟨[], Overlays.refl ht, by simp⟩
  · rintro u u' - hu hmove - ⟨ps, hover, hps⟩
    exact hmove.overlays hu ht hover hps

/-- At the end of a walk the old tree is cut at all pruned nodes, because a pruned node that were
still there would clash with a node above it. -/
theorem Completes.mem_cuts_iff (ht : t.Linked) (hroot : t.Rooted) (h : Completes cs t s)
    (hover : Overlays t ps s.tree) (hps : ∀ p ∈ ps, t.Pruned none t.root p) (x : Handle) :
    x ∈ ps ↔ t.Pruned none t.root x := by
  refine ⟨hps x, fun hx => ?_⟩
  obtain ⟨y, habove, hclash⟩ := hx.1.clashes ht
  obtain ⟨hxlive, hylive⟩ := habove.live ht
  by_contra hnot
  have hout : ∀ p ∈ ps, ¬ t.Beneath x p := by
    intro p hp hxp
    refine hx.2 p ((hps p hp).1.beneath ht) hxp ?_ (hps p hp).1
    rintro rfl
    exact hnot hp
  have hout' : ∀ p ∈ ps, ¬ t.Beneath y p := fun p hp hyp => hout p hp (habove.1.trans hyp)
  refine h.not_clashes ht hroot x ⟨y, ⟨?_, ?_⟩, (hover.retains.clash_iff hxlive hylive).mpr hclash⟩
  · exact (hover.beneath_iff_of_not_beneath ht hxlive hylive hout).mpr habove.1
  · rw [hover.retains.root]
    exact (hover.beneath_iff_of_not_beneath ht hylive ht.root hout').mpr habove.2

/-- An old node that is beneath no pruned node stays beneath the root, with its attributes and its
parent. -/
theorem Completes.exists_get?_of_not_pruned (ht : t.Linked) (hroot : t.Rooted)
    (h : Completes cs t s) {x : Handle} {n : Node} (hx : t.Beneath x t.root)
    (hn : t.get? x = some n) (hout : ∀ p, t.Pruned none t.root p → ¬ t.Beneath x p) :
    s.tree.Beneath x s.tree.root ∧
      ∃ n', s.tree.get? x = some n' ∧ n'.alone = n.alone ∧ n'.parent = n.parent := by
  obtain ⟨ps, hover, hps⟩ := h.exists_overlays ht hroot
  have hout' : ∀ p ∈ ps, ¬ t.Beneath x p := fun p hp => hout p (hps p hp)
  have hcut := get?_cut_of_not_beneath ht hover.cuts hout'
  rw [hn, Option.map_some] at hcut
  obtain ⟨n', hn', hparent, -⟩ := hover.links x _ hcut
  refine ⟨?_, n', hn', hover.retains.alone x n n' hn hn', hparent⟩
  rw [hover.retains.root]
  exact (hover.beneath_iff_of_not_beneath ht ⟨n, hn⟩ ht.root hout').mpr hx

/-! ## The two walks -/

/-- A plan without modules is applied with success and cuts the tree at the pruned nodes. -/
theorem Plan.apply_nil {ι : Type} (support : Option Targets) {w : Workspace ι} (hw : w.tree.Linked)
    {steps : Nat} (hsteps : w.tree.bound < steps) :
    ((Plan.apply ⟨[], support⟩ steps).run w).result = .ok () ∧
    ∃ qs, ((Plan.apply ⟨[], support⟩ steps).run w).state.tree = w.tree.cut qs ∧
      ∀ x, x ∈ qs ↔ w.tree.Pruned none w.tree.root x := by
  obtain ⟨r, hr⟩ := hw.root
  obtain ⟨b, -, hid, hb⟩ := hw.exists_branch? hr
  have hquiet : (⟨[], support⟩ : Plan ι).All Handler.Quiet := fun _ hm => absurd hm (by simp)
  obtain ⟨_, hok, htree, -⟩ :=
    (Plan.yields_walk_of_quiet hquiet hw hb none hsteps).exists_ok
  rw [hid] at hok htree
  refine ⟨hok, b.pruned none, htree, fun x => ?_⟩
  rw [hb.mem_pruned_iff hw, hid]

/-- If covers are applied to a tree with success, then so is the plan without modules, and every
node of the tree comes out of both alike: with the same attributes, data and parent, and with the
same children apart from those that are new. -/
theorem apply_eq_on_old_nodes {ι : Type} {support support' : Option Targets}
    {ms : List (List Cover)} {w : Workspace ι} (hw : w.tree.Reachable) {steps steps' : Nat}
    (hok : (((Cover.plan support ms).apply steps).run w).result = .ok ())
    (hsteps : w.tree.bound < steps') :
    let a := (((Cover.plan support ms).apply steps).run w).state.tree
    let o := (Plan.apply ⟨[], support'⟩ steps').run w
    o.result = .ok () ∧ ∀ x, (∃ n, w.tree.get? x = some n) →
      ∃ m n, a.get? x = some m ∧ o.state.tree.get? x = some n ∧
        m.kind = n.kind ∧ m.name = n.name ∧ m.value = n.value ∧ m.vendor = n.vendor ∧
        m.family = n.family ∧ m.block = n.block ∧ m.data = n.data ∧ m.parent = n.parent ∧
        n.children = m.children.filter w.tree.contains := by
  intro a o
  have ht := hw.linked
  obtain ⟨hok', qs, htree : o.state.tree = w.tree.cut qs, hqs⟩ := Plan.apply_nil support' ht hsteps
  refine ⟨hok', fun x hx => ?_⟩
  obtain ⟨s, hcompletes, hs : s.tree = a⟩ := completes_of_apply ht hw.rooted hok
  obtain ⟨ps, hover, hps⟩ := hcompletes.exists_overlays ht hw.rooted
  have hmem := hcompletes.mem_cuts_iff ht hw.rooted hover hps
  obtain ⟨n, hn⟩ := (Retains.cut ht hover.cuts).toKept.live hx
  obtain ⟨m, hm, hparent, hchildren⟩ := hover.links x n hn
  obtain ⟨k, hk⟩ := hx
  have halone : m.alone = n.alone :=
    (hover.retains.alone x k m hk hm).trans ((Retains.cut ht hover.cuts).alone x k n hk hn).symm
  obtain ⟨hkind, hname, hvendor, hvalue, hfamily, hblock, -, -, hdata⟩ := Node.mk.inj halone
  refine ⟨m, n, hs ▸ hm, ?_, hkind, hname, hvalue, hvendor, hfamily, hblock, hdata, hparent,
    hchildren.symm⟩
  rw [htree, ← hn]
  exact get?_cut_congr ht (fun p hp => hover.cuts p ((hmem p).mpr ((hqs p).mp hp)))
    (fun p => (hqs p).trans (hmem p).symm) x

end General

/-- The keyframes of one vendor have the same name and parent in both, and the same children apart
from new ones. -/
theorem apply_eq_on_old_nodes_nested :
    ∃ steps, let w : Workspace Unit := ⟨Tree.nested, ()⟩
      let o := ((Cover.plan none Cover.catalog).apply steps).run w
      let o' := (Plan.apply ⟨[], none⟩ 7).run w
      o.result = .ok () ∧ o'.result = .ok () ∧ ∃ m n, o.state.tree.get? ⟨2, 1⟩ = some m ∧
        o'.state.tree.get? ⟨2, 1⟩ = some n ∧ m.name = n.name ∧ m.parent = n.parent ∧
        n.children = m.children.filter Tree.nested.contains := by
  obtain ⟨_, steps, hrun⟩ := exists_apply_catalog none (w := (⟨Tree.nested, ()⟩ : Workspace Unit))
    planted_nested.regular
  have hok := (hrun steps (Nat.le_refl _)).1
  have hsteps : Tree.nested.bound < 7 := by decide +kernel
  have hlive : ∃ n, Tree.nested.get? ⟨2, 1⟩ = some n :=
    Option.isSome_iff_exists.mp (by decide +kernel)
  rw [← Cover.plan_catalog] at hok
  obtain ⟨hok', hall⟩ := apply_eq_on_old_nodes (w := (⟨Tree.nested, ()⟩ : Workspace Unit))
    planted_nested.reachable hok hsteps
  obtain ⟨m, n, hm, hn, -, hname, -, -, -, -, -, hparent, hchildren⟩ := hall ⟨2, 1⟩ hlive
  exact ⟨steps, hok, hok', m, n, hm, hn, hname, hparent, hchildren⟩

end StyleTree
