import StyleTree.Proofs.Catalog.Cover
import StyleTree.Proofs.Tree.Cut
import StyleTree.Proofs.Walk.Pruned

/-!
# The moves of a walk

What a walk with covers does, in single moves.  A `Stage` is where a walk stands: the nodes that are
being visited, from the innermost one up to the root, the tree as it is, and what is finalized.
There are four moves.

* A walk enters an open child of the innermost node, if the child agrees with the context.
* It prunes an open child that does not.
* When no child of the innermost node is open, a branch may grow before that node.
* When moreover all covers are settled, the node is finalized and left.

Every statement about what a walk with covers makes of a tree is an invariant of the moves.  The
first of them is `Stage.Valid`: the nodes that are being visited are a way down from the root, all
vendors on it agree, and what is finalized is closed under children.
-/

namespace StyleTree

open StyleTree.Tree Relation Walk

variable [Data]

namespace Tree

variable {t t' : Tree} {x y p c : Handle} {l rest : List Handle} {o : String}

/-! ## Ways down -/

/-- A way down from the root, the last node first. -/
inductive Trail (t : Tree) : List Handle → Prop
  | nil : Trail t []
  | root : Trail t [t.root]
  | into {c p : Handle} {rest : List Handle} (h : Trail t (p :: rest)) (hc : t.Lists p c) :
      Trail t (c :: p :: rest)

/-- The vendor that a walk goes by at the end of a way: the first one on the way down. -/
def contextOf (t : Tree) : List Handle → Option String
  | [] => none
  | x :: rest => t.contextOf rest <|> t.vendorAt x

@[simp] theorem contextOf_nil (t : Tree) : t.contextOf [] = none := rfl

theorem contextOf_cons (t : Tree) (x : Handle) (rest : List Handle) :
    t.contextOf (x :: rest) = (t.contextOf rest <|> t.vendorAt x) := rfl

theorem contextOf_congr (h : ∀ x ∈ l, t'.vendorAt x = t.vendorAt x) :
    t'.contextOf l = t.contextOf l := by
  induction l with
  | nil => rfl
  | cons x rest ih =>
    rw [contextOf_cons, contextOf_cons, h x (List.mem_cons_self ..),
      ih fun y hy => h y (List.mem_cons_of_mem _ hy)]

/-- A context comes from a node on the way. -/
theorem exists_of_contextOf_eq_some (h : t.contextOf l = some o) :
    ∃ x ∈ l, t.vendorAt x = some o := by
  induction l with
  | nil => exact absurd h (by simp)
  | cons x rest ih =>
    rw [contextOf_cons] at h
    cases hrest : t.contextOf rest with
    | none =>
      rw [hrest] at h
      exact ⟨x, List.mem_cons_self .., h⟩
    | some o' =>
      rw [hrest] at h
      obtain ⟨y, hy, hvendor⟩ := ih (hrest.trans h)
      exact ⟨y, List.mem_cons_of_mem _ hy, hvendor⟩

/-- A way with a vendor on it has a context. -/
theorem exists_contextOf_eq_some (hx : x ∈ l) (h : t.vendorAt x = some o) :
    ∃ o', t.contextOf l = some o' := by
  induction l with
  | nil => exact absurd hx (by simp)
  | cons y rest ih =>
    rw [contextOf_cons]
    cases hrest : t.contextOf rest with
    | some o' => exact ⟨o', rfl⟩
    | none =>
      rcases List.mem_cons.mp hx with rfl | hx
      · exact ⟨o, h⟩
      · obtain ⟨o', ho'⟩ := ih hx
        rw [hrest] at ho'
        exact absurd ho' (by simp)

theorem Trail.tail (h : t.Trail (x :: rest)) : t.Trail rest := by
  cases h with
  | root => exact .nil
  | into h _ => exact h

/-- The nodes of a way lie above its end. -/
theorem Trail.beneath_of_mem (ht : t.Linked) (h : t.Trail (x :: rest)) (hy : y ∈ x :: rest) :
    t.Beneath x y := by
  generalize hl : x :: rest = l at h hy
  induction h generalizing x rest with
  | nil => exact absurd hl (by simp)
  | root =>
    obtain ⟨rfl, rfl⟩ := List.cons.inj hl
    rw [List.mem_singleton.mp hy]
    exact Beneath.refl t _
  | @into c p rest' _ hc ih =>
    obtain ⟨rfl, rfl⟩ := List.cons.inj hl
    rcases List.mem_cons.mp hy with rfl | hy
    · exact Beneath.refl t _
    · exact (Beneath.of_hangs (ht.hangs_of_lists p x hc)).trans (ih rfl hy)

/-- A way begins at the root. -/
theorem Trail.beneath_root (ht : t.Linked) (h : t.Trail l) (hx : x ∈ l) : t.Beneath x t.root := by
  induction h generalizing x with
  | nil => exact absurd hx (by simp)
  | root =>
    rw [List.mem_singleton.mp hx]
    exact Beneath.refl t _
  | @into c p rest _ hc ih =>
    rcases List.mem_cons.mp hx with rfl | hx
    · exact (Beneath.of_hangs (ht.hangs_of_lists p x hc)).trans (ih (List.mem_cons_self ..))
    · exact ih hx

/-- All nodes above the end of a way, up to the root, are on it. -/
theorem Trail.mem_of_beneath (ht : t.Linked) (h : t.Trail (x :: rest)) (hxy : t.Beneath x y)
    (hy : t.Beneath y t.root) : y ∈ x :: rest := by
  generalize hl : x :: rest = l at h ⊢
  induction h generalizing x rest with
  | nil => exact absurd hl (by simp)
  | root =>
    obtain ⟨rfl, rfl⟩ := List.cons.inj hl
    rw [ht.eq_of_beneath_of_beneath hy hxy]
    exact List.mem_singleton_self _
  | @into c p rest' _ hc ih =>
    obtain ⟨rfl, rfl⟩ := List.cons.inj hl
    by_cases hne : x = y
    · exact hne ▸ List.mem_cons_self ..
    · exact List.mem_cons_of_mem _ (ih (hxy.parent hne (ht.hangs_of_lists p x hc)) rfl)

theorem Trail.live (ht : t.Linked) (h : t.Trail l) (hx : x ∈ l) : ∃ n, t.get? x = some n := by
  obtain ⟨n, hn⟩ := ht.root
  exact Linked.live_of_beneath (h.beneath_root ht hx) hn

/-- The end of a way is not on the way above it. -/
theorem Trail.notMem (ht : t.Linked) (h : t.Trail (x :: rest)) : x ∉ rest := by
  cases h with
  | root => simp
  | into h hc =>
    intro hmem
    exact ht.not_beneath_of_hangs (ht.hangs_of_lists _ x hc) (h.beneath_of_mem ht hmem)

/-- A way stays if its edges stay. -/
theorem Trail.mono (h : t.Trail l) (hroot : t'.root = t.root)
    (hlists : ∀ p ∈ l, ∀ c ∈ l, t.Lists p c → t'.Lists p c) : t'.Trail l := by
  induction h with
  | nil => exact .nil
  | root => exact hroot ▸ .root
  | @into c p rest _ hc ih =>
    refine .into (ih fun q hq d hd => hlists q (List.mem_cons_of_mem _ hq) d
      (List.mem_cons_of_mem _ hd)) ?_
    exact hlists p (List.mem_cons_of_mem _ (List.mem_cons_self ..)) c (List.mem_cons_self ..) hc

end Tree

/-! ## Stages and moves -/

/-- Where a walk stands. -/
structure Stage where
  /-- The nodes that are being visited, the innermost first. -/
  path : List Handle
  tree : Tree
  finalized : Std.HashSet Handle

namespace Stage

/-- A node that a walk can come to next: the first child of the innermost node that is not
finalized, or at the beginning the root. -/
structure Opens (s : Stage) (x : Handle) : Prop where
  trail : s.tree.Trail (x :: s.path)
  unmarked : x ∉ s.finalized
  first : ∀ p rest, s.path = p :: rest → ∃ n left right, s.tree.get? p = some n ∧
    n.children = left ++ x :: right ∧ ∀ z ∈ left, z ∈ s.finalized

/-- Whether a node would have to go at this stage. -/
def foreign (s : Stage) (x : Handle) : Bool :=
  isForeign (s.tree.contextOf s.path) (s.tree.vendorAt x)

/-- All children of a node are finalized. -/
def Done (s : Stage) (x : Handle) : Prop :=
  ∀ y, s.tree.Lists x y → y ∈ s.finalized

end Stage

/-- What a walk with covers can do next. -/
inductive Move (cs : List Cover) : Stage → Stage → Prop
  | enter {s : Stage} {x : Handle} (hx : s.Opens x) (hown : s.foreign x = false) :
      Move cs s { s with path := x :: s.path }
  | prune {s : Stage} {x : Handle} (hx : s.Opens x) (hforeign : s.foreign x = true) :
      Move cs s { s with tree := s.tree.prune x }
  | sprout {s : Stage} {v p : Handle} {rest : List Handle} {c : Cover} {n : Node} {b : Branch}
      {t : Tree} (hpath : s.path = v :: rest) (hdone : s.Done v) (hc : c ∈ cs)
      (hgrows : c.Grows s.tree v n p b t) : Move cs s { s with tree := t }
  | leave {s : Stage} {v : Handle} {rest : List Handle} (hpath : s.path = v :: rest)
      (hdone : s.Done v) (hsettled : ∀ c ∈ cs, c.Settled s.tree v) :
      Move cs s { s with path := rest, finalized := s.finalized.insert v }

namespace Stage

/-- What holds at every stage. -/
structure Valid (s : Stage) : Prop where
  linked : s.tree.Linked
  rooted : s.tree.Rooted
  trail : s.tree.Trail s.path
  unmarked : ∀ x ∈ s.path, x ∉ s.finalized
  agrees : ∀ x ∈ s.path, ∀ o, s.tree.vendorAt x = some o → s.tree.contextOf s.path = some o
  live : ∀ x ∈ s.finalized, ∃ n, s.tree.get? x = some n
  closed : ∀ q x, s.tree.Lists q x → q ∈ s.finalized → x ∈ s.finalized

variable {s s' : Stage} {cs : List Cover} {x y v : Handle}

/-- Everything beneath a finalized node is finalized. -/
theorem Valid.mem_of_beneath (hs : s.Valid) (hy : y ∈ s.finalized) (h : s.tree.Beneath x y) :
    x ∈ s.finalized := by
  induction h using ReflTransGen.head_induction_on with
  | refl => exact hy
  | head hh _ ih =>
    obtain ⟨n, hn⟩ := hs.live _ ih
    exact hs.closed _ _ (hs.linked.lists_of_hangs_of_live hh hn) ih

theorem Opens.live (hs : s.Valid) (hx : s.Opens x) : ∃ n, s.tree.get? x = some n :=
  hx.trail.live hs.linked (List.mem_cons_self ..)

/-- With a node that is not foreign the vendors on the way agree as before. -/
theorem Valid.agrees_cons (hs : s.Valid) (hown : s.foreign x = false) :
    ∀ y ∈ x :: s.path, ∀ o, s.tree.vendorAt y = some o →
      s.tree.contextOf (x :: s.path) = some o := by
  intro y hy o ho
  rw [contextOf_cons]
  rcases List.mem_cons.mp hy with rfl | hy
  · cases hcontext : s.tree.contextOf s.path with
    | none => exact ho
    | some o' =>
      by_contra hne
      have hforeign : s.foreign y = true := by
        refine isForeign_iff.mpr ⟨o', o, hcontext, ho, ?_⟩
        rintro rfl
        exact hne rfl
      rw [hown] at hforeign
      exact absurd hforeign (by simp)
  · rw [hs.agrees y hy o ho]
    rfl

/-- And so do they without the last node. -/
theorem Valid.agrees_tail {rest : List Handle} (hs : s.Valid) (hpath : s.path = v :: rest) :
    ∀ y ∈ rest, ∀ o, s.tree.vendorAt y = some o → s.tree.contextOf rest = some o := by
  intro y hy o ho
  obtain ⟨o', ho'⟩ := exists_contextOf_eq_some hy ho
  have hall := hs.agrees y (hpath ▸ List.mem_cons_of_mem _ hy) o ho
  rw [hpath, contextOf_cons, ho'] at hall
  exact ho'.trans hall

/-- What is being visited is not beneath a node that a walk comes to next. -/
theorem Opens.not_beneath (hs : s.Valid) (hx : s.Opens x) (hy : y ∈ s.path) :
    ¬ s.tree.Beneath y x := by
  intro hyx
  have hxy := hx.trail.beneath_of_mem hs.linked (List.mem_cons_of_mem _ hy)
  obtain rfl := hs.linked.eq_of_beneath_of_beneath hxy hyx
  exact hx.trail.notMem hs.linked hy

/-- The parent of a node that is being visited is not finalized. -/
theorem Valid.parent_unmarked (hs : s.Valid) (hv : v ∈ s.path) (hp : s.tree.Lists y v) :
    y ∉ s.finalized :=
  fun hy => hs.unmarked v hv (hs.closed y v hp hy)

end Stage

section Move

variable {cs : List Cover} {s s' : Stage}

theorem Move.steps (h : Move cs s s') (hs : s.Valid) : Steps s.tree s'.tree := by
  cases h with
  | enter | leave => exact ReflTransGen.refl
  | prune hx =>
    obtain ⟨n, hn⟩ := hx.live hs
    exact ReflTransGen.single (Step.prune _ _ hn)
  | sprout _ _ _ hgrows => exact hgrows.sprouts.steps

theorem Move.retains (h : Move cs s s') (hs : s.Valid) : Retains s.tree s'.tree := by
  cases h with
  | enter | leave => exact Retains.refl _
  | prune hx =>
    obtain ⟨n, hn⟩ := hx.live hs
    exact Retains.prune hs.linked hn
  | sprout _ _ _ hgrows => exact hgrows.sprouts.retains hs.linked

/-- The context of the way is what it was. -/
theorem Move.contextOf (h : Move cs s s') (hs : s.Valid) :
    s'.tree.contextOf s.path = s.tree.contextOf s.path :=
  contextOf_congr fun _ hx => (h.retains hs).vendorAt (hs.trail.live hs.linked hx)

/-- The way down stays. -/
theorem Move.trail (h : Move cs s s') (hs : s.Valid) : s'.tree.Trail s.path := by
  refine hs.trail.mono (h.steps hs).root fun p hp c hc hl => ?_
  cases h with
  | enter | leave => exact hl
  | prune hx =>
    obtain ⟨n, hn⟩ := hx.live hs
    refine (lists_prune hs.linked hn).mpr ⟨hl, hx.not_beneath hs hp, ?_⟩
    rintro rfl
    exact hx.not_beneath hs hc (Beneath.refl _ _)
  | sprout _ _ _ hgrows => exact (hgrows.sprouts.lists_iff hl.live).mpr (Or.inl hl)

/-- Moves keep stages valid. -/
theorem Move.valid (h : Move cs s s') (hs : s.Valid) : s'.Valid := by
  have hlinked := (h.steps hs).linked hs.linked
  have hrooted := (h.steps hs).rooted hs.linked hs.rooted
  have htrail := h.trail hs
  -- moves that stay on the way keep the vendors on it
  have hagrees : ∀ y ∈ s.path, ∀ o, s'.tree.vendorAt y = some o →
      s'.tree.contextOf s.path = some o := by
    intro y hy o ho
    rw [(h.retains hs).vendorAt (hs.trail.live hs.linked hy)] at ho
    rw [h.contextOf hs, hs.agrees y hy o ho]
  cases h with
  | @enter x hx hown =>
    refine ⟨hlinked, hrooted, hx.trail, ?_, hs.agrees_cons hown, hs.live, hs.closed⟩
    intro y hy
    rcases List.mem_cons.mp hy with rfl | hy
    · exact hx.unmarked
    · exact hs.unmarked y hy
  | @prune x hx hforeign =>
    obtain ⟨n, hn⟩ := hx.live hs
    refine ⟨hlinked, hrooted, htrail, hs.unmarked, hagrees, ?_, ?_⟩
    · exact fun y hy => live_prune hs.linked hn (hs.live y hy)
    · exact fun q y hl hq => hs.closed q y ((lists_prune hs.linked hn).mp hl).1 hq
  | @sprout v p rest c n b t hpath hdone hc hgrows =>
    have hv : v ∈ s.path := hpath ▸ List.mem_cons_self ..
    refine ⟨hlinked, hrooted, htrail, hs.unmarked, hagrees, ?_, ?_⟩
    · exact fun y hy => (hgrows.sprouts.retains hs.linked).toKept.live (hs.live y hy)
    · intro q y hl hq
      rcases (hgrows.sprouts.lists_iff (hs.live q hq)).mp hl with hl | ⟨rfl, -⟩
      · exact hs.closed q y hl hq
      · exact absurd hq (hs.parent_unmarked hv hgrows.sprouts.lists_self)
  | @leave v rest hpath hdone hsettled =>
    have htrail : s.tree.Trail (v :: rest) := hpath ▸ hs.trail
    have hmem : ∀ y ∈ rest, y ∈ s.path := fun y hy => hpath ▸ List.mem_cons_of_mem _ hy
    refine ⟨hlinked, hrooted, htrail.tail, ?_, hs.agrees_tail hpath, ?_, ?_⟩
    · intro y hy hmarked
      rcases Std.HashSet.mem_insert.mp hmarked with he | hmarked
      · exact htrail.notMem hs.linked (eq_of_beq he ▸ hy)
      · exact hs.unmarked y (hmem y hy) hmarked
    · intro y hy
      rcases Std.HashSet.mem_insert.mp hy with he | hy
      · exact htrail.live hs.linked (eq_of_beq he ▸ List.mem_cons_self ..)
      · exact hs.live y hy
    · intro q y hl hq
      rw [Std.HashSet.mem_insert]
      rcases Std.HashSet.mem_insert.mp hq with he | hq
      · exact Or.inr (hdone y (eq_of_beq he ▸ hl))
      · exact Or.inr (hs.closed q y hl hq)

end Move

/-! ## Sequences of moves -/

/-- Moves one after the other, throughout which a way stays part of the path. -/
def Moves (cs : List Cover) (floor : List Handle) : Stage → Stage → Prop :=
  ReflTransGen fun s s' => Move cs s s' ∧ floor <:+ s.path ∧ floor <:+ s'.path

namespace Moves

variable {cs : List Cover} {floor : List Handle} {s s' : Stage}

theorem valid (h : Moves cs floor s s') (hs : s.Valid) : s'.Valid := by
  induction h with
  | refl => exact hs
  | tail _ hmove ih => exact hmove.1.valid ih

/-- What every move keeps is kept by moves.  A move is looked at together with the moves before
it. -/
theorem induction {P : Stage → Prop} (h : Moves cs floor s s') (hs : s.Valid) (hP : P s)
    (hstep : ∀ u u', Moves cs floor s u → u.Valid → Move cs u u' → floor <:+ u.path → P u → P u') :
    P s' := by
  induction h with
  | refl => exact hP
  | tail hmoves hmove ih => exact hstep _ _ hmoves (valid hmoves hs) hmove.1 hmove.2.1 ih

theorem steps (h : Moves cs floor s s') (hs : s.Valid) : Steps s.tree s'.tree :=
  h.induction (P := fun u => Steps s.tree u.tree) hs .refl
    fun _ _ _ hu hmove _ hsteps => hsteps.trans (hmove.steps hu)

theorem retains (h : Moves cs floor s s') (hs : s.Valid) : Retains s.tree s'.tree :=
  h.induction (P := fun u => Retains s.tree u.tree) hs (Retains.refl _)
    fun _ _ _ hu hmove _ hr => hr.trans (hmove.retains hu)

theorem mono {floor' : List Handle} (hfloor : floor' <:+ floor) (h : Moves cs floor s s') :
    Moves cs floor' s s' := by
  refine ReflTransGen.mono ?_ s s' h
  rintro u u' ⟨hmove, hpath, hpath'⟩
  exact ⟨hmove, hfloor.trans hpath, hfloor.trans hpath'⟩

end Moves

end StyleTree
