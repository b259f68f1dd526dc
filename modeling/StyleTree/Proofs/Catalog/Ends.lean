import StyleTree.Proofs.Catalog.Plain

/-!
# Walks over plain trees end

A walk keeps inserting nodes into the lists that it goes through, and still it ends, if the tree is
plain and the covers are tame.  There are two reasons.

* *Down.*  A copy is no deeper than its original, so no move makes a tree deeper.  `Within k` bounds
  the depth below a node, and all moves keep it (`Move.within`).
* *Along.*  The copies that are put beside a child are not copied in their turn.  So each visit of a
  child leaves fewer open children that a cover has a handler for, or else as many of these and
  fewer open children altogether (`shrinks_of_visits`).

`VisitEnds` says that a visit ends in a state, without saying how many steps it takes: from some
number on, every number of steps is enough and leads to the same state.
-/

namespace StyleTree

open StyleTree.Action StyleTree.Tree Relation Walk

/-! ## Depth -/

namespace Spec

/-- There are fewer than so many levels below the topmost node. -/
def Within : Nat → Spec → Prop
  | 0, _ => False
  | k + 1, s => ∀ c ∈ s.children, Within k c

mutual

/-- There are no more levels than nodes. -/
theorem within_of_size_le (s : Spec) {k : Nat} (h : s.size ≤ k) : s.Within k := by
  match s, k with
  | ⟨kind, name, value, block, children⟩, 0 => exact absurd h (by simp [size])
  | ⟨kind, name, value, block, children⟩, k + 1 =>
    exact within_of_sizeAll_le children (Nat.le_of_succ_le_succ h)

theorem within_of_sizeAll_le (l : List Spec) {k : Nat} (h : sizeAll l ≤ k) :
    ∀ s ∈ l, s.Within k := by
  match l with
  | [] => simp
  | s :: l =>
    rw [sizeAll] at h
    intro s' hs'
    rcases List.mem_cons.mp hs' with he | hs'
    · rw [he]
      exact within_of_size_le s (Nat.le_trans (Nat.le_add_right ..) h)
    · exact within_of_sizeAll_le l (Nat.le_trans (Nat.le_add_left ..) h) s' hs'

end

theorem Within.tidied {k : Nat} {s : Spec} (h : s.Within k) : s.tidied.Within k := by
  induction k generalizing s with
  | zero => exact h
  | succ k ih =>
    intro c hc
    obtain ⟨c', hc', rfl⟩ := exists_of_mem_tidyAll hc
    exact ih (h c' hc')

theorem Within.congr {k : Nat} {s s' : Spec} (h : s.Within k) (hs : s'.children = s.children) :
    s'.Within k := by
  cases k with
  | zero => exact h
  | succ k =>
    intro c hc
    rw [hs] at hc
    exact h c hc

end Spec

variable [Data]

namespace Tree

variable {t t' : Tree} {x p v : Handle} {n : Node} {b : Branch} {k : Nat}

/-- There are fewer than so many levels below a node. -/
def Within (t : Tree) : Nat → Handle → Prop
  | 0, _ => False
  | k + 1, x => ∀ y, t.Lists x y → t.Within k y

theorem Shows.within_iff (h : t.Shows b) : t.Within k b.id ↔ b.toSpec.Within k := by
  induction k generalizing b with
  | zero => rfl
  | succ k ih =>
    cases h with
    | @mk id node bs hnode hchildren hbs =>
      rw [Branch.toSpec_mk, Branch.id_mk]
      constructor
      · intro hall s hs
        obtain ⟨d, hd, rfl⟩ := List.mem_map.mp hs
        exact (ih (hbs d hd)).mp (hall d.id ⟨node, hnode, hchildren ▸ List.mem_map_of_mem hd⟩)
      · rintro hall y ⟨m, hm, hy⟩
        obtain rfl : node = m := Option.some.inj (hnode.symm.trans hm)
        rw [← hchildren] at hy
        obtain ⟨d, hd, rfl⟩ := List.mem_map.mp hy
        exact (ih (hbs d hd)).mpr (hall _ (List.mem_map_of_mem hd))

theorem Linked.exists_within (ht : t.Linked) (hx : t.get? x = some n) : ∃ k, t.Within k x := by
  obtain ⟨b, -, rfl, hb⟩ := ht.exists_branch? hx
  exact ⟨_, hb.within_iff.mpr (b.toSpec.within_of_size_le (Nat.le_refl _))⟩

theorem Within.prune (ht : t.Linked) (hp : t.get? p = some n) (h : t.Within k x) :
    (t.prune p).Within k x := by
  induction k generalizing x with
  | zero => exact h
  | succ k ih => exact fun y hl => ih (h y ((lists_prune ht hp).mp hl).1)

/-- A branch that is no deeper than the node it is put before makes nothing deeper. -/
theorem Within.sprouts (ht : t.Linked) (hs : t.Sprouts p v b t')
    (hb : ∀ k, t.Within k v → t'.Within k b.id) (hx : ∃ n, t.get? x = some n) (h : t.Within k x) :
    t'.Within k x := by
  induction k generalizing x with
  | zero => exact h
  | succ k ih =>
    intro y hl
    rcases (hs.lists_iff hx).mp hl with hl | ⟨rfl, rfl⟩
    · exact ih (ht.hangs_of_lists x y hl).live (h y hl)
    · exact hb k (h v hs.lists_self)

end Tree

section Move

variable {cs : List Cover} {floor : List Handle} {s s' : Stage} {x : Handle} {k : Nat}

/-- In a plain tree moves make nothing deeper. -/
theorem Move.within (h : Move cs s s') (hs : s.Valid) (hp : s.tree.Plain)
    (hx : ∃ n, s.tree.get? x = some n) (hk : s.tree.Within k x) : s'.tree.Within k x := by
  cases h with
  | enter | leave => exact hk
  | prune hc =>
    obtain ⟨n, hn⟩ := hc.live hs
    exact hk.prune hs.linked hn
  | @sprout v p rest c n b t hpath hdone hc hgrows =>
    refine hk.sprouts hs.linked hgrows.sprouts (fun k hv => ?_) hx
    have hroot : s.tree.Beneath v s.tree.root :=
      hs.trail.beneath_root hs.linked (hpath ▸ List.mem_cons_self ..)
    obtain ⟨d, -, hid, hd⟩ := hs.linked.exists_branch? hgrows.node
    obtain ⟨-, hspec⟩ := hgrows.toSpec_eq hs.linked hs.rooted hp hroot hd hid
    have hdepth : d.toSpec.tidied.Within k := (hd.within_iff.mp (hid ▸ hv)).tidied
    refine hgrows.sprouts.shows.within_iff.mpr (hdepth.congr ?_)
    rw [hspec]

theorem Moves.within (hcs : ∀ c ∈ cs, c.Tame) (h : Moves cs floor s s') (hs : s.Valid)
    (hp : s.tree.Plain) (hx : ∃ n, s.tree.get? x = some n) (hk : s.tree.Within k x) :
    s'.tree.Within k x := by
  refine h.induction (P := fun u => u.tree.Within k x) hs hk fun u u' hmoves hu hmove _ hk => ?_
  exact hmove.within hu (hmoves.plain hcs hs hp) ((hmoves.retains hs).toKept.live hx) hk

end Move

/-! ## The children of a node -/

section Along

variable {cs : List Cover} {s s' : Stage} {t t' : Tree} {x y z v : Handle} {rest path : List Handle}

/-- Whether there is a handler for a node is a matter of its attributes. -/
theorem Cover.handled_iff (h : Retains t t') (hx : ∃ n, t.get? x = some n) :
    Cover.Handled cs t' x ↔ Cover.Handled cs t x := by
  obtain ⟨n, hn⟩ := hx
  obtain ⟨n', hn', halone⟩ := h.get? hn
  have hsame : ∀ c : Cover, c.Handles n' ↔ c.Handles n := fun c =>
    show c.Handles n'.alone ↔ c.Handles n.alone by rw [halone]
  unfold Cover.Handled
  simp only [hn, hn', Option.some.injEq, exists_eq_left', hsame]

/-- Of the children of a node on a way, only the next one on the way can be its end. -/
theorem Tree.Trail.eq_of_lists (ht : t.Linked) (h : t.Trail (v :: rest))
    (hsuffix : y :: x :: path <:+ v :: rest) (hl : t.Lists x v) : v = y := by
  rcases List.suffix_cons_iff.mp hsuffix with he | hrest
  · exact (List.cons.inj he).1.symm
  · cases h with
    | root => exact absurd (List.suffix_nil.mp hrest) (by simp)
    | @into _ q rest hq hlq =>
      obtain rfl : x = q := (ht.hangs_of_lists x v hl).unique (ht.hangs_of_lists q v hlq)
      refine absurd ?_ (hq.notMem ht)
      rcases List.suffix_cons_iff.mp hrest with he | hrest
      · rw [← (List.cons.inj he).2]
        exact List.mem_cons_self ..
      · exact hrest.subset (List.mem_cons_of_mem _ (List.mem_cons_self ..))

/-- While a child of `x` is being visited, `x` gets no children but copies of it, which need no
cover. -/
theorem Moves.lists_parent (hcs : ∀ c ∈ cs, c.Tame) (h : Moves cs (y :: x :: path) s s')
    (hs : s.Valid) (hp : s.tree.Plain) (hx : ∃ n, s.tree.get? x = some n)
    (hy : ∃ n, s.tree.get? y = some n) (hl : s'.tree.Lists x z) :
    s.tree.Lists x z ∨ ¬ Cover.Handled cs s'.tree z ∧ Cover.Handled cs s.tree y := by
  refine h.induction (P := fun u => ∀ z, u.tree.Lists x z →
    s.tree.Lists x z ∨ ¬ Cover.Handled cs u.tree z ∧ Cover.Handled cs s.tree y)
    hs (fun _ hl => Or.inl hl) ?_ z hl
  intro u u' hmoves hu hmove hfloor hlists z hl
  have hp := hmoves.plain hcs hs hp
  have hretains := hmoves.retains hs
  -- an old child is as it was, and so is its need of a cover
  have hold : u.tree.Lists x z →
      s.tree.Lists x z ∨ ¬ Cover.Handled cs u'.tree z ∧ Cover.Handled cs s.tree y := by
    intro hl
    rw [Cover.handled_iff (hmove.retains hu) (hu.linked.hangs_of_lists x z hl).live]
    exact hlists z hl
  cases hmove with
  | enter | leave => exact hold hl
  | prune hc =>
    obtain ⟨n, hn⟩ := hc.live hu
    exact hold ((lists_prune hu.linked hn).mp hl).1
  | @sprout v p rest c n b t hpath hdone hc hgrows =>
    rcases (hgrows.sprouts.lists_iff (hretains.toKept.live hx)).mp hl with hl | ⟨rfl, rfl⟩
    · exact hold hl
    · have htrail : u.tree.Trail (v :: rest) := hpath ▸ hu.trail
      obtain rfl := htrail.eq_of_lists hu.linked (hpath ▸ hfloor) hgrows.sprouts.lists_self
      have hv := htrail.beneath_root hu.linked (List.mem_cons_self ..)
      have hb := hgrows.sprouts.shows.get?
      have hplain := hgrows.plain (hcs c hc) hu.linked hu.rooted hp hv _
        (Branch.id_mem_handles b) _ hb
      refine Or.inr ⟨?_, (Cover.handled_iff hretains hy).mp ⟨c, hc, n, hgrows.node, hgrows.handles⟩⟩
      rintro ⟨c', hc', m, hm, hhandles⟩
      obtain rfl : b.node = m := Option.some.inj (hb.symm.trans hm)
      exact (hcs c hc).not_handles (hcs c' hc') hplain
        (hgrows.name_eq hu.linked hu.rooted hp hv) hhandles

theorem Moves.finalized_mono {floor : List Handle} (h : Moves cs floor s s')
    (hz : z ∈ s.finalized) : z ∈ s'.finalized := by
  induction h with
  | refl => exact hz
  | tail _ hmove ih =>
    cases hmove.1 with
    | enter | prune | sprout => exact ih
    | leave => exact Std.HashSet.mem_insert.mpr (Or.inr ih)

/-- A visit of a child closes the child, and opens no others but copies of it. -/
theorem Visits.lists_parent (hcs : ∀ c ∈ cs, c.Tame) (h : Visits cs y s s') (hs : s.Valid)
    (hp : s.tree.Plain) (hpath : s.path = x :: path) (hl : s'.tree.Lists x z)
    (hz : z ∉ s'.finalized) :
    z ≠ y ∧ (s.tree.Lists x z ∨ ¬ Cover.Handled cs s'.tree z ∧ Cover.Handled cs s.tree y) := by
  have hx : ∃ n, s.tree.get? x = some n :=
    hs.trail.live hs.linked (hpath ▸ List.mem_cons_self ..)
  cases h with
  | pruned hy hforeign =>
    obtain ⟨n, hn⟩ := hy.live hs
    obtain ⟨hl, -, hne⟩ := (lists_prune hs.linked hn).mp hl
    exact ⟨hne, Or.inl hl⟩
  | @through s' hy hown hmoves hpath' hdone hsettled =>
    have hne : z ≠ y := by
      rintro rfl
      exact hz Std.HashSet.mem_insert_self
    have henter := (Move.enter hy hown : Move [] _ _).valid hs
    have hlive := hy.live hs
    rw [hpath] at hmoves henter
    have hlists := hmoves.lists_parent hcs henter hp hx hlive (z := z) hl
    exact ⟨hne, hlists⟩

end Along

namespace Walk

variable {ι : Type} {support : Option Targets} {ms : List (List Cover)} {cs : List Cover}
  {w w' w'' : Walk ι} {x y z : Handle} {path : List Handle} {context : Option String} {k : Nat}

theorem mem_openChildren_iff :
    z ∈ w.openChildren x ↔ w.workspace.tree.Lists x z ∧ z ∉ w.finalized := by
  unfold openChildren Tree.Lists
  cases w.workspace.tree.get? x <;> simp

theorem nodup_openChildren (hw : w.workspace.tree.Linked) : (w.openChildren x).Nodup := by
  unfold openChildren
  cases hx : w.workspace.tree.get? x with
  | none => exact List.nodup_nil
  | some n => exact (hw.nodup x n hx).filter _

/-- The open children of a node that a cover has a handler for. -/
def needyChildren (cs : List Cover) (w : Walk ι) (x : Handle) : List Handle :=
  (w.openChildren x).filter fun y => Cover.Handled cs w.workspace.tree y

theorem mem_needyChildren_iff : z ∈ w.needyChildren cs x ↔
    z ∈ w.openChildren x ∧ Cover.Handled cs w.workspace.tree z := by
  unfold needyChildren
  rw [List.mem_filter, decide_eq_true_iff]

omit [Data] in
theorem length_lt_of_subset {l l' : List Handle} (hl : l'.Nodup) (hsub : l' ⊆ l) (hy : y ∈ l)
    (hy' : y ∉ l') : l'.length < l.length :=
  (List.nodup_cons.mpr ⟨hy', hl⟩).length_le_of_subset (List.cons_subset.mpr ⟨hy, hsub⟩)

/-- A visit of an open child leaves fewer that need a cover, or else no more of these and fewer
altogether. -/
theorem shrinks_of_visits (hcs : ∀ c ∈ cs, c.Tame) (hw : (w.stage (x :: path)).Valid)
    (hp : w.workspace.tree.Plain) (hy : w.firstOpenChild x = some y)
    (h : Visits cs y (w.stage (x :: path)) (w'.stage (x :: path))) :
    (w'.needyChildren cs x).length < (w.needyChildren cs x).length ∨
      (w'.needyChildren cs x).length ≤ (w.needyChildren cs x).length ∧
        (w'.openChildren x).length < (w.openChildren x).length := by
  have hmoves : Moves cs (x :: path) (w.stage (x :: path)) (w'.stage (x :: path)) := h.moves
  have hnodup : (w'.openChildren x).Nodup := nodup_openChildren (hmoves.valid hw).linked
  have hyopen : y ∈ w.openChildren x :=
    mem_openChildren_iff.mpr (lists_of_firstOpenChild_eq_some hy)
  have hopen : ∀ z ∈ w'.openChildren x, z ≠ y ∧ (z ∈ w.openChildren x ∨
      ¬ Cover.Handled cs w'.workspace.tree z ∧ Cover.Handled cs w.workspace.tree y) := by
    intro z hz
    obtain ⟨hl, hz⟩ := mem_openChildren_iff.mp hz
    obtain ⟨hne, hold⟩ := h.lists_parent hcs hw hp rfl hl hz
    refine ⟨hne, hold.imp_left fun hl => mem_openChildren_iff.mpr ⟨hl, fun hz' => ?_⟩⟩
    exact hz (hmoves.finalized_mono hz')
  have hneedy : w'.needyChildren cs x ⊆ w.needyChildren cs x := by
    intro z hz
    obtain ⟨hz, hhandled⟩ := mem_needyChildren_iff.mp hz
    have hz' := (hopen z hz).2.resolve_right fun hnew => hnew.1 hhandled
    have hlive := (hw.linked.hangs_of_lists x z (mem_openChildren_iff.mp hz').1).live
    exact mem_needyChildren_iff.mpr
      ⟨hz', (Cover.handled_iff (hmoves.retains hw) hlive).mp hhandled⟩
  have hneedynd : (w'.needyChildren cs x).Nodup := hnodup.filter _
  by_cases hhandled : Cover.Handled cs w.workspace.tree y
  · refine Or.inl (length_lt_of_subset hneedynd hneedy
      (mem_needyChildren_iff.mpr ⟨hyopen, hhandled⟩) fun hmem => ?_)
    exact (hopen y (mem_needyChildren_iff.mp hmem).1).1 rfl
  · refine Or.inr ⟨hneedynd.length_le_of_subset hneedy,
      length_lt_of_subset hnodup (fun z hz => ?_) hyopen fun hmem => (hopen y hmem).1 rfl⟩
    exact (hopen z hz).2.resolve_right fun hnew => hhandled hnew.2

/-! ## Visits that end -/

/-- A visit ends in a state, given enough steps. -/
def VisitEnds (plan : Plan ι) (context : Option String) (x : Handle) (w w' : Walk ι) : Prop :=
  ∃ least, ∀ n, least ≤ n →
    (visit plan n context x).Yields w (fun _ s => s = w') (fun _ _ => False)

/-- Visits of the children of a node end in a state, given enough steps. -/
def ChildrenEnd (plan : Plan ι) (context : Option String) (x : Handle) (w w' : Walk ι) : Prop :=
  ∃ least, ∀ n, least ≤ n → ∀ k, least ≤ k →
    (children (visit plan n context) x k).Yields w (fun _ s => s = w') (fun _ _ => False)

theorem childrenEnd_of_none {plan : Plan ι} (h : w.firstOpenChild x = none) :
    ChildrenEnd plan context x w w := by
  refine ⟨1, fun n _ k hk => ?_⟩
  obtain ⟨k, rfl⟩ := Nat.exists_eq_add_one.mpr hk
  rw [yields_children_succ, h]

theorem VisitEnds.children {plan : Plan ι} (hy : w.firstOpenChild x = some y)
    (h : VisitEnds plan context y w w') (h' : ChildrenEnd plan context x w' w'') :
    ChildrenEnd plan context x w w'' := by
  obtain ⟨least, h⟩ := h
  obtain ⟨least', h'⟩ := h'
  refine ⟨max least (least' + 1), fun n hn k hk => ?_⟩
  obtain ⟨k, rfl⟩ := Nat.exists_eq_add_one.mpr (show 0 < k by omega)
  rw [yields_children_succ, hy]
  refine (h n (by omega)).mono ?_ fun _ _ hno => hno
  rintro _ _ rfl
  exact h' n (by omega) k (by omega)

/-- A plain node is finalized without failure. -/
theorem exists_finalize (support : Option Targets) (ms : List (List Cover))
    (hw : (w.stage (x :: path)).Valid) (hp : w.workspace.tree.Plain) :
    ∃ w', (finalize (Cover.plan support ms) x).Yields w (fun _ s => s = w') (fun _ _ => False) := by
  have hok : (finalize (Cover.plan support ms) x).Yields w (fun _ _ => True)
      (fun _ _ => False) := by
    refine (yields_finalize_covers hw).mono (fun _ _ _ => trivial) ?_
    rintro _ w' ⟨hbuds, ⟨c, hc, m, hm, hhandles⟩, hno⟩
    have hroot := hw.trail.beneath_root hw.linked (List.mem_cons_self ..)
    obtain ⟨n, hn⟩ := hw.trail.live hw.linked (List.mem_cons_self ..)
    obtain rfl : n = m := Option.some.inj ((Cover.buds_get? hw.linked hbuds hn).symm.trans hm)
    obtain ⟨d, -, rfl, hd⟩ := hw.linked.exists_branch? hn
    have hplain := hp.toSpec hw.linked hd hroot (hhandles.ne_root hw.rooted hn)
    exact hno _ ((copies_iff_of_plain (Cover.buds_linked hw.linked hbuds)
      (Cover.buds_shows hw.linked hbuds hd rfl) hplain).mpr rfl)
  obtain ⟨a, hresult, -⟩ := hok.exists_ok
  exact ⟨_, (yields_iff_of_ok hresult).mpr rfl⟩

/-- A visit that ends has made the moves of a visit. -/
theorem VisitEnds.visits (h : VisitEnds (Cover.plan support ms) context x w w')
    (hw : (w.stage path).Valid) (hx : (w.stage path).Opens x)
    (hcontext : w.workspace.tree.contextOf path = context) :
    Visits (Cover.needed support ms.flatten) x (w.stage path) (w'.stage path) := by
  obtain ⟨least, h⟩ := h
  obtain ⟨a, hresult, rfl⟩ := (h least (Nat.le_refl _)).exists_ok
  exact (yields_visit_moves least hw hx hcontext).of_ok hresult

/-- Visits of the children of a node that end have made moves, until no child was open. -/
theorem ChildrenEnd.moves (h : ChildrenEnd (Cover.plan support ms) context x w w')
    (hw : (w.stage (x :: path)).Valid)
    (hcontext : w.workspace.tree.contextOf (x :: path) = context) :
    Moves (Cover.needed support ms.flatten) (x :: path) (w.stage (x :: path))
      (w'.stage (x :: path)) := by
  obtain ⟨least, h⟩ := h
  obtain ⟨a, hresult, rfl⟩ := (h least (Nat.le_refl _) least (Nat.le_refl _)).exists_ok
  exact ((yields_children_moves (fun y w hw hy hc => yields_visit_moves least hw hy hc) least hw
    hcontext).of_ok hresult).1

/-- The visits of the children of a node end if a visit of each of them does.  Each visit leaves
fewer children to copy, or no more of these and fewer children, so the induction is on both
numbers. -/
theorem exists_childrenEnd (hcs : ∀ c ∈ Cover.needed support ms.flatten, c.Tame)
    (hvisit : ∀ y (w : Walk ι), (w.stage (x :: path)).Valid → w.workspace.tree.Plain →
      (w.stage (x :: path)).Opens y → w.workspace.tree.Within k y →
      w.workspace.tree.contextOf (x :: path) = context →
      ∃ w', VisitEnds (Cover.plan support ms) context y w w')
    (hw : (w.stage (x :: path)).Valid) (hp : w.workspace.tree.Plain)
    (hk : w.workspace.tree.Within (k + 1) x)
    (hcontext : w.workspace.tree.contextOf (x :: path) = context) :
    ∃ w', ChildrenEnd (Cover.plan support ms) context x w w' := by
  generalize ha : (w.needyChildren (Cover.needed support ms.flatten) x).length = a
  generalize hb : (w.openChildren x).length = b
  induction a using Nat.strong_induction_on generalizing b w with
  | h a iha =>
    induction b using Nat.strong_induction_on generalizing w with
    | h b ihb =>
      cases hy : w.firstOpenChild x with
      | none => exact ⟨w, childrenEnd_of_none hy⟩
      | some y =>
        have hopens := opens_of_firstOpenChild_eq_some hw hy
        have hyk := hk y (lists_of_firstOpenChild_eq_some hy).1
        obtain ⟨w₁, hends⟩ := hvisit y w hw hp hopens hyk hcontext
        have hvisits := hends.visits hw hopens hcontext
        have hmoves := hvisits.moves
        have hlive := hw.trail.live hw.linked (List.mem_cons_self ..)
        have hw₁ := hmoves.valid hw
        have hp₁ := hmoves.plain hcs hw hp
        have hk₁ := hmoves.within hcs hw hp hlive hk
        have hcontext₁ : w₁.workspace.tree.contextOf (x :: path) = context := by
          rw [← hcontext]
          exact contextOf_congr fun z hz =>
            (hmoves.retains hw).vendorAt (hw.trail.live hw.linked hz)
        have hrest : ∃ w', ChildrenEnd (Cover.plan support ms) context x w₁ w' := by
          rcases shrinks_of_visits hcs hw hp hy hvisits with hlt | ⟨hle, hlt⟩
          · exact iha _ (ha ▸ hlt) hw₁ hp₁ hk₁ hcontext₁ rfl _ rfl
          · rcases Nat.lt_or_eq_of_le hle with hlt' | heq
            · exact iha _ (ha ▸ hlt') hw₁ hp₁ hk₁ hcontext₁ rfl _ rfl
            · exact ihb _ (hb ▸ hlt) hw₁ hp₁ hk₁ hcontext₁ (heq.trans ha) rfl
        obtain ⟨w', hrest⟩ := hrest
        exact ⟨w', hends.children hy hrest⟩

/-- With tame covers a visit of a node of a plain tree ends. -/
theorem exists_visitEnds (hcs : ∀ c ∈ Cover.needed support ms.flatten, c.Tame)
    (hw : (w.stage path).Valid) (hp : w.workspace.tree.Plain) (hx : (w.stage path).Opens x)
    (hk : w.workspace.tree.Within k x) (hcontext : w.workspace.tree.contextOf path = context) :
    ∃ w', VisitEnds (Cover.plan support ms) context x w w' := by
  induction k generalizing context path x w with
  | zero => exact hk.elim
  | succ k ih =>
    obtain ⟨m, hm⟩ := hx.live hw
    by_cases hforeign : isForeign context (w.workspace.tree.vendorAt x) = true
    · refine ⟨{ w with workspace := { w.workspace with tree := w.workspace.tree.prune x } }, 1,
        fun n hn => ?_⟩
      obtain ⟨n, rfl⟩ := Nat.exists_eq_add_one.mpr hn
      rw [yields_visit_covers hm, if_pos hforeign]
    · have hown : (w.stage path).foreign x = false := by
        rw [← hcontext, Bool.not_eq_true] at hforeign
        exact hforeign
      have henter : (w.stage (x :: path)).Valid := (Move.enter hx hown : Move [] _ _).valid hw
      have hcontext' : w.workspace.tree.contextOf (x :: path) =
          (context <|> w.workspace.tree.vendorAt x) := by
        rw [contextOf_cons, hcontext]
      obtain ⟨w₁, hchildren⟩ := exists_childrenEnd hcs
        (fun y w hw hp hy hk hc => ih hw hp hy hk hc) henter hp hk hcontext'
      have hmoves := hchildren.moves henter hcontext'
      obtain ⟨w₂, hfinalize⟩ := exists_finalize support ms
        (hmoves.valid henter) (hmoves.plain hcs henter hp)
      obtain ⟨least, hchildren⟩ := hchildren
      refine ⟨w₂, least + 1, fun n hn => ?_⟩
      obtain ⟨n, rfl⟩ := Nat.exists_eq_add_one.mpr (Nat.zero_lt_of_lt hn)
      have hn' : least ≤ n := Nat.le_of_succ_le_succ hn
      rw [yields_visit_covers hm, if_neg hforeign]
      refine (hchildren n hn' n hn').mono ?_ fun _ _ hno => hno
      rintro _ _ rfl
      exact hfinalize

end Walk

/-- With tame covers a plan is applied to a regular tree with success, given enough steps, and the
workspace that it leaves does not depend on their number. -/
theorem exists_apply {ι : Type} {support : Option Targets} {ms : List (List Cover)}
    (hcs : ∀ c ∈ Cover.needed support ms.flatten, c.Tame) {w : Workspace ι} (hw : w.tree.Regular) :
    ∃ w' least, ∀ steps, least ≤ steps →
      (((Cover.plan support ms).apply steps).run w).result = .ok () ∧
      (((Cover.plan support ms).apply steps).run w).state = w' := by
  obtain ⟨r, hr⟩ := hw.linked.root
  obtain ⟨k, hk⟩ := hw.linked.exists_within hr
  have hvalid : ((Walk.start w).stage []).Valid := Stage.valid_start hw.linked hw.rooted
  obtain ⟨w', least, hends⟩ :=
    Walk.exists_visitEnds (k := k) hcs hvalid hw.plain (Stage.opens_root w.tree) hk rfl
  refine ⟨w'.workspace, least, fun steps hsteps => ?_⟩
  have hwalk : ((Cover.plan support ms).walk steps w.tree.root none).Yields (Walk.start w)
      (fun _ s => s = w') (fun _ _ => False) := by
    unfold Plan.walk
    rw [yields_bind]
    exact (hends steps hsteps).mono (fun _ _ h => h) fun _ _ h => h
  obtain ⟨a, hresult, hstate⟩ := hwalk.exists_ok
  exact ⟨hresult, congrArg Walk.workspace hstate⟩

end StyleTree
