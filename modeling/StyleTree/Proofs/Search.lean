import StyleTree.Proofs.Edit.Place
import StyleTree.Proofs.Tree.Nearest
import StyleTree.Proofs.Walk.Pruned
import StyleTree.Tree.Search

/-!
# Searching down and up

A search goes down the lists of children, and a question for an enclosing node goes up along the
parents.  In a reachable tree both see the same tree: what is found below a node is what has the
node above it.

The answers of a search come in document order.  `Precedes` says what that is by the links alone: a
node comes before what is beneath it, and what is beneath one child comes before what is beneath a
child that is listed later.  The second half is where the order could go wrong, because the two
nodes can be far below the parent whose list decides.

* `Precedes.not_beneath`, `Linked.precedes_asymm`: no two nodes precede each other.
* `Shows.pairwise_precedes`: a whole branch lists its handles in document order.
* `Linked.below_eq`: the nodes at and below a node, by its children.
* `Linked.mem_search_iff`, `Linked.ancestor?_eq_some_iff`: what is found downwards and upwards.
* `lookups_agree`: all of this for reachable trees.
-/

namespace StyleTree.Tree

section General

variable [Data] {t : Tree} {id p x y a b : Handle} {n m : Node} {query : Query} {br : Branch}

/-! ## The order of two entries -/

omit [Data] in
/-- In a list without repetitions one entry stands before another if its position is smaller. -/
theorem pair_sublist_iff {l : List Handle} (h : l.Nodup) :
    [x, y].Sublist l ↔ x ∈ l ∧ y ∈ l ∧ l.idxOf x < l.idxOf y := by
  induction l with
  | nil => simp
  | cons c l ih =>
    obtain ⟨hc, hl⟩ := List.nodup_cons.mp h
    rw [List.sublist_cons_iff, ih hl, List.idxOf_cons, List.idxOf_cons]
    by_cases hx : c = x
    · subst hx
      by_cases hy : c = y
      · subst hy
        simp [hc]
      · have hbeq : (c == y) = false := beq_eq_false_iff_ne.mpr hy
        simp [hc, hbeq, Ne.symm hy]
    · have hbeq : (c == x) = false := beq_eq_false_iff_ne.mpr hx
      by_cases hy : c = y
      · subst hy
        simp [hc]
      · have hbeq' : (c == y) = false := beq_eq_false_iff_ne.mpr hy
        simp [hbeq, hbeq', Ne.symm hx, Ne.symm hy]

/-! ## Document order -/

/-- Document order: a node comes before what is beneath it, and what is beneath one child of a node
comes before what is beneath a child that is listed later. -/
inductive Precedes (t : Tree) (x y : Handle) : Prop
  | above (h : t.Beneath y x) (hne : y ≠ x)
  | beside {p a b : Handle} {n : Node} (hp : t.get? p = some n) (hab : [a, b].Sublist n.children)
      (hx : t.Beneath x a) (hy : t.Beneath y b)

/-- A child that has a node beneath it is the only one. -/
theorem Linked.eq_of_siblings (ht : t.Linked) (ha : t.Hangs a p) (hb : t.Hangs b p)
    (hxa : t.Beneath x a) (hxb : t.Beneath x b) : a = b := by
  by_contra hne
  exact ht.not_beneath_of_siblings ha hb hne hxa hxb

/-- Two entries of a list of children are two children. -/
theorem Linked.siblings_of_sublist (ht : t.Linked) (hp : t.get? p = some n)
    (hab : [a, b].Sublist n.children) : t.Hangs a p ∧ t.Hangs b p ∧ a ≠ b := by
  have hnodup := hab.nodup (ht.nodup p n hp)
  exact ⟨ht.hangs_of_lists p a ⟨n, hp, hab.subset (by simp)⟩,
    ht.hangs_of_lists p b ⟨n, hp, hab.subset (by simp)⟩, by simpa using hnodup⟩

theorem Precedes.not_beneath (ht : t.Linked) (h : t.Precedes x y) : ¬ t.Beneath x y := by
  intro hxy
  cases h with
  | above hyx hne => exact hne (ht.eq_of_beneath_of_beneath hyx hxy)
  | beside hp hab hx hy =>
    obtain ⟨ha, hb, hne⟩ := ht.siblings_of_sublist hp hab
    exact hne (ht.eq_of_siblings ha hb hx (hxy.trans hy))

theorem Precedes.ne (ht : t.Linked) (h : t.Precedes x y) : x ≠ y := by
  rintro rfl
  exact h.not_beneath ht (Beneath.refl t x)

/-- The children of two nodes cannot disagree about the order of what is beneath them.  If one of
the nodes is beneath the other, then both pairs of children are beneath one child of the upper
node. -/
theorem Linked.not_crossed (ht : t.Linked) {n' : Node} {p' a' b' : Handle} (hpp : t.Beneath p p')
    (hp : t.get? p = some n) (hab : [a, b].Sublist n.children) (hxa : t.Beneath x a)
    (hyb : t.Beneath y b) (hp' : t.get? p' = some n') (hab' : [a', b'].Sublist n'.children)
    (hya : t.Beneath y a') (hxb : t.Beneath x b') : False := by
  obtain ⟨ha, hb, -⟩ := ht.siblings_of_sublist hp hab
  obtain ⟨ha', hb', hne'⟩ := ht.siblings_of_sublist hp' hab'
  rcases ht.eq_or_exists_child hp' hpp with rfl | ⟨c, hc, hpc⟩
  · obtain rfl : n = n' := Option.some.inj (hp.symm.trans hp')
    obtain rfl : a = b' := ht.eq_of_siblings ha hb' hxa hxb
    obtain rfl : b = a' := ht.eq_of_siblings hb ha' hyb hya
    have hnodup := ht.nodup p n hp
    have hlt := ((pair_sublist_iff hnodup).mp hab).2.2
    have hgt := ((pair_sublist_iff hnodup).mp hab').2.2
    omega
  · have hc := ht.hangs_of_lists p' c ⟨n', hp', hc⟩
    have hxc : t.Beneath x c := (hxa.trans (Beneath.of_hangs ha)).trans hpc
    have hyc : t.Beneath y c := (hyb.trans (Beneath.of_hangs hb)).trans hpc
    exact hne' ((ht.eq_of_siblings ha' hc hya hyc).trans (ht.eq_of_siblings hc hb' hxc hxb))

theorem Linked.precedes_asymm (ht : t.Linked) (h : t.Precedes x y) : ¬ t.Precedes y x := by
  intro h'
  cases h with
  | above hyx _ => exact h'.not_beneath ht hyx
  | @beside p a b n hp hab hxa hyb =>
    cases h' with
    | above hxy _ => exact (Precedes.beside hp hab hxa hyb).not_beneath ht hxy
    | @beside p' a' b' n' hp' hab' hya hxb =>
      obtain ⟨ha, -⟩ := ht.siblings_of_sublist hp hab
      obtain ⟨-, hb', -⟩ := ht.siblings_of_sublist hp' hab'
      rcases (hxa.trans (Beneath.of_hangs ha)).total (hxb.trans (Beneath.of_hangs hb')) with h | h
      · exact ht.not_crossed h hp hab hxa hyb hp' hab' hya hxb
      · exact ht.not_crossed h hp' hab' hya hxb hp hab hxa hyb

/-- A whole branch lists its handles in document order. -/
theorem Shows.pairwise_precedes (ht : t.Linked) (h : t.Shows br) :
    br.handles.Pairwise t.Precedes := by
  induction h with
  | @mk id node bs hnode hchildren hbs ih =>
    have hself := (Shows.mk hnode hchildren hbs).id_notMem_children ht
    have htop := fun x => (Shows.mk hnode hchildren hbs).mem_handles_iff (x := x) ht
    rw [Branch.handles_mk] at htop ⊢
    rw [List.pairwise_cons, List.pairwise_flatMap, List.pairwise_iff_forall_sublist]
    refine ⟨fun y hy => ?_, ih, ?_⟩
    · refine Precedes.above ((htop y).mp (List.mem_cons_of_mem _ hy)) ?_
      rintro rfl
      obtain ⟨d, hd, hmem⟩ := List.mem_flatMap.mp hy
      exact hself d hd hmem
    · intro b c hbc x hx y hy
      have hb := hbs b (hbc.subset (by simp))
      have hc := hbs c (hbc.subset (by simp))
      have hids : [b.id, c.id].Sublist node.children := hchildren ▸ hbc.map Branch.id
      exact Precedes.beside hnode hids ((hb.mem_handles_iff ht).mp hx)
        ((hc.mem_handles_iff ht).mp hy)

/-! ## Going down -/

/-- The nodes at and below a node are the node and, child by child, those at and below its
children. -/
theorem Linked.below_eq (ht : t.Linked) (hid : t.get? id = some n) :
    t.below id = (id, n) :: n.children.flatMap t.below := by
  obtain ⟨br, -, rfl, hshows⟩ := ht.exists_branch? hid
  rw [hshows.below_eq ht]
  cases hshows with
  | @mk id node bs hnode hchildren hbs =>
    obtain rfl : node = n := Option.some.inj (hnode.symm.trans hid)
    have hentries : ∀ d ∈ bs, t.below d.id = d.entries := fun d hd => (hbs d hd).below_eq ht
    rw [Branch.entries_mk, Branch.id_mk, ← hchildren, List.flatMap_map, List.flatMap_congr hentries]

/-- The nodes at and below a node, each with its handle. -/
theorem Linked.mem_below_iff_get? (ht : t.Linked) (hid : t.get? id = some n) :
    (x, m) ∈ t.below id ↔ t.get? x = some m ∧ t.Beneath x id := by
  rw [← ht.mem_below_iff hid]
  obtain ⟨br, -, rfl, hshows⟩ := ht.exists_branch? hid
  rw [hshows.below_eq ht]
  constructor
  · intro hx
    exact ⟨hshows.get?_of_mem_entries hx, List.mem_map_of_mem hx⟩
  · rintro ⟨hm, hx⟩
    obtain ⟨⟨x', m'⟩, hx', rfl⟩ := List.mem_map.mp hx
    have hm' := hshows.get?_of_mem_entries hx'
    obtain rfl : m' = m := Option.some.inj (hm'.symm.trans hm)
    exact hx'

theorem Linked.mem_search_iff (ht : t.Linked) (hid : t.get? id = some n) :
    x ∈ t.search id query ↔
      (∃ m, t.get? x = some m ∧ query.accepts m = true) ∧ t.Beneath x id := by
  unfold search
  rw [List.mem_map]
  constructor
  · rintro ⟨⟨y, m⟩, hy, rfl⟩
    obtain ⟨hy, haccepts⟩ := List.mem_filter.mp hy
    obtain ⟨hm, hbeneath⟩ := (ht.mem_below_iff_get? hid).mp hy
    exact ⟨⟨m, hm, haccepts⟩, hbeneath⟩
  · rintro ⟨⟨m, hm, haccepts⟩, hbeneath⟩
    exact ⟨(x, m), List.mem_filter.mpr ⟨(ht.mem_below_iff_get? hid).mpr ⟨hm, hbeneath⟩, haccepts⟩,
      rfl⟩

theorem Linked.pairwise_search (ht : t.Linked) (hid : t.get? id = some n) :
    (t.search id query).Pairwise t.Precedes := by
  obtain ⟨br, -, rfl, hshows⟩ := ht.exists_branch? hid
  refine (hshows.pairwise_precedes ht).sublist ?_
  unfold search
  rw [hshows.below_eq ht]
  exact List.filter_sublist.map Prod.fst

/-- A search is a recursion over lists of children. -/
theorem Linked.search_eq (ht : t.Linked) (hid : t.get? id = some n) :
    t.search id query =
      (if query.accepts n then [id] else []) ++ n.children.flatMap fun c => t.search c query := by
  unfold search
  rw [ht.below_eq hid, List.filter_cons, List.filter_flatMap]
  by_cases haccepts : query.accepts n = true
  · simp only [haccepts, if_true, List.map_cons, List.map_flatMap, List.singleton_append]
  · simp only [haccepts, Bool.false_eq_true, if_false, List.map_flatMap, List.nil_append]

theorem Linked.has_eq (ht : t.Linked) (hid : t.get? id = some n) :
    t.has id query = (query.accepts n || n.children.any fun c => t.has c query) := by
  unfold has
  rw [ht.below_eq hid, List.any_cons, List.any_flatMap]

theorem has_iff_search : t.has id query = true ↔ t.search id query ≠ [] := by
  unfold has search
  rw [Ne, List.map_eq_nil_iff, List.filter_eq_nil_iff, List.any_eq_true]
  simp

theorem hasChild_iff_childrenOf : t.hasChild id query = true ↔ t.childrenOf id query ≠ [] := by
  unfold hasChild childrenOf
  rw [Ne, List.filter_eq_nil_iff, List.any_eq_true]
  simp

/-- What a node finds among its children is what names it as the parent. -/
theorem Linked.mem_childrenOf_iff (ht : t.Linked) (hid : t.get? id = some n) :
    x ∈ t.childrenOf id query ↔ t.Hangs x id ∧ t.answers x query = true := by
  unfold childrenOf
  rw [hid, List.mem_filter]
  refine and_congr_left fun _ => ⟨fun hx => ht.hangs_of_lists id x ⟨n, hid, hx⟩, fun hx => ?_⟩
  obtain ⟨m, hm, hmem⟩ := ht.lists_of_hangs_of_live hx hid
  obtain rfl : m = n := Option.some.inj (hm.symm.trans hid)
  exact hmem

/-! ## Going up -/

/-- The enclosing node that answers a query is the nearest one that does. -/
theorem Linked.ancestor?_eq_some_iff (ht : t.Linked) :
    t.ancestor? x query = some a ↔ t.Nearest (fun y => t.answers y query = true) x a := by
  let f : Handle × Node → Option Handle := fun e => if query.accepts e.2 then some e.1 else none
  have hask : ∀ y, t.ask f y = if t.answers y query then some y else none := by
    intro y
    unfold ask answers
    cases t.get? y <;> rfl
  have hfind : t.ancestor? x query = (t.lineage x).findSome? f := by
    unfold ancestor?
    rw [← List.findSome?_guard, List.map_findSome?]
    congr 1
    funext e
    by_cases h : query.accepts e.2 = true <;> simp [f, h, Option.guard]
  have hsaid : (fun y => t.ask f y ≠ none) = fun y => t.answers y query = true := by
    funext y
    rw [hask]
    by_cases h : t.answers y query = true <;> simp [h]
  rw [hfind, ht.findSome?_lineage_iff, hsaid]
  constructor
  · rintro ⟨a', hnear, ha⟩
    rw [hask, if_pos hnear.holds] at ha
    rwa [← Option.some.inj ha]
  · intro hnear
    exact ⟨a, hnear, by rw [hask, if_pos hnear.holds]⟩

/-! ## Both ways -/

/-- In a list that is in document order one entry stands before another exactly if it precedes
it. -/
theorem Linked.pair_sublist_iff_precedes (ht : t.Linked) {l : List Handle}
    (h : l.Pairwise t.Precedes) : [x, y].Sublist l ↔ x ∈ l ∧ y ∈ l ∧ t.Precedes x y := by
  have hnodup : l.Nodup := h.imp fun hxy => hxy.ne ht
  have horder : ∀ {x y}, [x, y].Sublist l → t.Precedes x y := List.pairwise_iff_forall_sublist.mp h
  constructor
  · intro hxy
    exact ⟨hxy.subset (by simp), hxy.subset (by simp), horder hxy⟩
  · rintro ⟨hx, hy, hxy⟩
    rcases Nat.lt_trichotomy (l.idxOf x) (l.idxOf y) with hlt | heq | hgt
    · exact (pair_sublist_iff hnodup).mpr ⟨hx, hy, hlt⟩
    · exact absurd ((List.idxOf_inj hx).mp heq) (hxy.ne ht)
    · exact absurd (horder ((pair_sublist_iff hnodup).mpr ⟨hy, hx, hgt⟩)) (ht.precedes_asymm hxy)

/-- Lookups from a node of a reachable tree.  A search finds the nodes that answer the query and
have the node on their way up, each once and in document order.  A node has something at or below it
that answers, or a child that does, exactly if the search or the list of such children is not empty,
and the children that are found are those that name the node as their parent.  Searching is the
recursion over the lists of children.  The enclosing node that is found, from any handle, is the
first one on the way up that answers. -/
theorem lookups_agree (h : t.Reachable) (hid : t.get? id = some n) (query : Query) :
    (∀ x, x ∈ t.search id query ↔
      (∃ m, t.get? x = some m ∧ query.accepts m = true) ∧ t.Beneath x id) ∧
    (t.search id query).Nodup ∧
    (∀ x y, [x, y].Sublist (t.search id query) ↔
      x ∈ t.search id query ∧ y ∈ t.search id query ∧ t.Precedes x y) ∧
    t.search id query =
      (if query.accepts n then [id] else []) ++ n.children.flatMap (fun c => t.search c query) ∧
    (t.has id query = true ↔ t.search id query ≠ []) ∧
    t.has id query = (query.accepts n || n.children.any fun c => t.has c query) ∧
    (t.hasChild id query = true ↔ t.childrenOf id query ≠ []) ∧
    (∀ x, x ∈ t.childrenOf id query ↔ t.Hangs x id ∧ t.answers x query = true) ∧
    ∀ x a, t.ancestor? x query = some a ↔ t.Nearest (fun y => t.answers y query = true) x a := by
  have ht := h.linked
  have horder : (t.search id query).Pairwise t.Precedes := ht.pairwise_search hid
  refine ⟨fun x => ht.mem_search_iff hid, horder.imp fun hxy => hxy.ne ht,
    fun x y => ht.pair_sublist_iff_precedes horder, ht.search_eq hid, has_iff_search, ht.has_eq hid,
    hasChild_iff_childrenOf, fun x => ht.mem_childrenOf_iff hid,
    fun x a => ht.ancestor?_eq_some_iff⟩

end General

/-- In a stylesheet of two rules the declarations are found from the root, those of the first rule
first, although no declaration is a child of the root; and from a declaration one finds the rule
around it. -/
theorem lookups_agree_two :
    let t := Edit.twoRules
    let declarations : Query := { Query.any with kind := .ofKind .declaration }
    let rules : Query := { Query.any with kind := .ofKind .rule }
    t.Reachable ∧ t.search ⟨1, 1⟩ declarations = [⟨3, 1⟩, ⟨4, 1⟩, ⟨6, 1⟩] ∧
      t.Precedes ⟨4, 1⟩ ⟨6, 1⟩ ∧ t.Beneath ⟨6, 1⟩ ⟨1, 1⟩ ∧ t.has ⟨1, 1⟩ declarations = true ∧
      t.childrenOf ⟨1, 1⟩ declarations = [] ∧ t.hasChild ⟨1, 1⟩ declarations = false ∧
      t.Nearest (fun y => t.answers y rules = true) ⟨6, 1⟩ ⟨5, 1⟩ := by
  intro t declarations rules
  obtain ⟨n, hn⟩ : ∃ n, t.get? ⟨1, 1⟩ = some n := ⟨_, rfl⟩
  have hsearch : t.search ⟨1, 1⟩ declarations = [⟨3, 1⟩, ⟨4, 1⟩, ⟨6, 1⟩] := by decide +kernel
  have hchildren : t.childrenOf ⟨1, 1⟩ declarations = [] := by decide +kernel
  have hrule : t.ancestor? ⟨6, 1⟩ rules = some ⟨5, 1⟩ := by decide +kernel
  obtain ⟨hmem, -, horder, -, hhas, -, hchild, -, -⟩ :=
    lookups_agree Edit.reachable_twoRules hn declarations
  obtain ⟨-, -, -, -, -, -, -, -, hnearest⟩ := lookups_agree Edit.reachable_twoRules hn rules
  have hpair : [⟨4, 1⟩, ⟨6, 1⟩].Sublist (t.search ⟨1, 1⟩ declarations) := by
    rw [hsearch]
    decide
  obtain ⟨-, hlast, hprecedes⟩ := (horder ⟨4, 1⟩ ⟨6, 1⟩).mp hpair
  refine ⟨Edit.reachable_twoRules, hsearch, hprecedes, ((hmem ⟨6, 1⟩).mp hlast).2, ?_,
    hchildren, ?_, (hnearest ⟨6, 1⟩ ⟨5, 1⟩).mp hrule⟩
  · rw [hhas, hsearch]
    exact List.cons_ne_nil _ _
  · rw [← Bool.not_eq_true, hchild, hchildren]
    exact fun hne => hne rfl

end StyleTree.Tree
