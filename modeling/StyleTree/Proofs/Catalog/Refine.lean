import StyleTree.Proofs.Catalog.Move
import StyleTree.Proofs.Walk.Once

/-!
# Walks with covers are made of moves

A walk is a recursion and forgets the way it came; what it needs of the way is the context that it
is given.  Here the way is put back: a visit of `x` with the context of a path begins and ends at
stages with that path, and in between it makes the moves of `Visits`.  It prunes `x`, or it enters
`x`, makes moves below `x` and before it, and leaves `x`.

* `yields_visit_moves`: a visit that succeeds makes these moves.
* `completes_of_apply`: a plan of covers that is applied with success makes moves from the first
  stage to one at which the root is finalized, and with it everything beneath the root.
-/

namespace StyleTree

open StyleTree.Action StyleTree.Tree Relation Walk

variable [Data] {ι : Type} {support : Option Targets} {ms : List (List Cover)} {cs : List Cover}

/-- The plan that applies modules of covers. -/
def Cover.plan (support : Option Targets) (ms : List (List Cover)) : Plan ι :=
  ⟨ms.map (·.map Cover.plugin), support⟩

/-- The stage of a walk that has come along a path. -/
def Walk.stage (w : Walk ι) (path : List Handle) : Stage :=
  ⟨path, w.workspace.tree, w.finalized⟩

/-! ## Moves of a visit -/

/-- The moves of a visit. -/
inductive Visits (cs : List Cover) (x : Handle) : Stage → Stage → Prop
  | pruned {s : Stage} (hx : s.Opens x) (hforeign : s.foreign x = true) :
      Visits cs x s { s with tree := s.tree.prune x }
  | through {s s' : Stage} (hx : s.Opens x) (hown : s.foreign x = false)
      (hmoves : Moves cs (x :: s.path) { s with path := x :: s.path } s')
      (hpath : s'.path = x :: s.path) (hdone : s'.Done x)
      (hsettled : ∀ c ∈ cs, c.Settled s'.tree x) :
      Visits cs x s ⟨s.path, s'.tree, s'.finalized.insert x⟩

theorem Visits.moves {s s' : Stage} {x : Handle} (h : Visits cs x s s') : Moves cs s.path s s' := by
  cases h with
  | pruned hx hforeign =>
    exact .single ⟨.prune hx hforeign, List.suffix_refl _, List.suffix_refl _⟩
  | @through s' hx hown hmoves hpath hdone hsettled =>
    have hsub : s.path <:+ x :: s.path := List.suffix_cons ..
    have henter : Moves cs s.path s { s with path := x :: s.path } :=
      .single ⟨.enter hx hown, List.suffix_refl _, hsub⟩
    have hleave : Moves cs s.path s' ⟨s.path, s'.tree, s'.finalized.insert x⟩ :=
      .single ⟨.leave hpath hdone hsettled, hpath ▸ hsub, List.suffix_refl _⟩
    exact (henter.trans (hmoves.mono hsub)).trans hleave

/-- Without a context nothing is pruned. -/
theorem Visits.mem_finalized {s s' : Stage} {x : Handle} (h : Visits cs x s s')
    (hcontext : s.tree.contextOf s.path = none) : x ∈ s'.finalized := by
  cases h with
  | pruned hx hforeign =>
    unfold Stage.foreign at hforeign
    rw [hcontext] at hforeign
    exact absurd hforeign (by simp [isForeign])
  | through => exact Std.HashSet.mem_insert_self

/-- Branches that grow before the innermost node are moves. -/
theorem moves_of_buds {s : Stage} {v : Handle} {rest : List Handle} {t : Tree} (hs : s.Valid)
    (hpath : s.path = v :: rest) (hdone : s.Done v) (h : ReflTransGen (Cover.Buds cs v) s.tree t) :
    Moves cs s.path s { s with tree := t } ∧ Stage.Done { s with tree := t } v := by
  induction h with
  | refl => exact ⟨.refl, hdone⟩
  | @tail u u' _ hbuds ih =>
    obtain ⟨hmoves, hdone'⟩ := ih
    obtain ⟨c, hc, n, p, b, hgrows⟩ := hbuds
    have hu : Stage.Valid { s with tree := u } := hmoves.valid hs
    refine ⟨hmoves.tail ⟨.sprout hpath hdone' hc hgrows, List.suffix_refl _, List.suffix_refl _⟩,
      fun y hl => ?_⟩
    rcases (hgrows.sprouts.lists_iff ⟨n, hgrows.node⟩).mp hl with hl | ⟨hvp, -⟩
    · exact hdone' y hl
    · exact absurd hvp (hgrows.sprouts.ne hu.linked)

namespace Walk

variable {w w' : Walk ι} {x : Handle} {path : List Handle} {n : Nat} {context : Option String}
  {Q : Unit → Walk ι → Prop} {F : Fault → Walk ι → Prop}

/-! ## The parts of a visit -/

/-- A walk with covers that comes to a node changes nothing. -/
theorem yields_arrive_covers {m : Node} {s : Workspace ι} {Q : Option String → Workspace ι → Prop}
    {F : Fault → Workspace ι → Prop} (hx : s.tree.get? x = some m) :
    (arrive (Cover.plan support ms) x).Yields s Q F ↔ Q m.vendor s := by
  rw [yields_arrive_iff]
  have hbefore : ∀ Q' : Unit → Workspace ι → Prop,
      (runModules support .before x (ms.map (·.map Cover.plugin))).Yields s Q' F ↔ Q' () s :=
    fun _ => Cover.yields_runModules_before ms
  simp only [hx, Option.some.injEq, reduceCtorEq, false_implies, and_true, forall_eq']
  split
  · exact (hbefore _).trans (by simp [hx])
  · rfl

/-- A visit, once it is known whether the node has to go. -/
theorem yields_visit_covers {m : Node} (hx : w.workspace.tree.get? x = some m) :
    (visit (Cover.plan support ms) (n + 1) context x).Yields w Q F ↔
      if isForeign context (w.workspace.tree.vendorAt x) then
        Q () { w with workspace := { w.workspace with tree := w.workspace.tree.prune x } }
      else (children (visit (Cover.plan support ms) n (context <|> w.workspace.tree.vendorAt x)) x
        n).Yields w (fun _ w' => (finalize (Cover.plan support ms) x).Yields w' Q F) F := by
  rw [yields_visit_succ, yields_arrive_covers hx, vendorAt_of_get? hx]
  split
  · unfold Edit.remove
    rw [yields_bind, Edit.yields_node, hx]
    simp
  · rfl

/-- A node without open children is tended and then finalized.  It is listed, unless it is the root,
which needs no cover. -/
theorem yields_finalize_covers (hw : (w.stage (x :: path)).Valid) :
    (finalize (Cover.plan support ms) x).Yields w
      (fun _ w' =>
        Cover.Tends (Cover.needed support ms.flatten) x w.workspace.tree w'.workspace.tree ∧
        w'.finalized = w.finalized.insert x)
      (fun _ w' => ReflTransGen (Cover.Buds (Cover.needed support ms.flatten) x) w.workspace.tree
          w'.workspace.tree ∧
        Cover.Handled (Cover.needed support ms.flatten) w'.workspace.tree x ∧
        ∀ spec, ¬ Edit.Copies w'.workspace.tree x spec) := by
  rw [yields_finalize_iff]
  refine (Cover.tending_runModules support x ms w.workspace hw.linked
    (hw.trail.live hw.linked (List.mem_cons_self ..)) ?_).mono ?_ fun _ _ h => h
  · rintro ⟨c, -, m, hm, hc⟩
    have htrail : w.workspace.tree.Trail (x :: path) := hw.trail
    cases htrail with
    | root => exact absurd rfl (hc.ne_root hw.rooted hm)
    | into _ hl => exact ⟨_, hl⟩
  · exact fun _ s h => ⟨h, rfl⟩

/-! ## Visits -/

theorem done_of_firstOpenChild_eq_none (h : w.firstOpenChild x = none) : (w.stage path).Done x :=
  fun _ hl => mem_of_openChildren_eq_nil (openChildren_of_firstOpenChild_eq_none h) hl

theorem opens_of_firstOpenChild_eq_some {y : Handle} (hw : (w.stage (x :: path)).Valid)
    (h : w.firstOpenChild x = some y) : (w.stage (x :: path)).Opens y := by
  obtain ⟨hl, hopen⟩ := lists_of_firstOpenChild_eq_some h
  refine ⟨.into hw.trail hl, hopen, ?_⟩
  rintro p rest ⟨⟩
  exact exists_append_of_firstOpenChild_eq_some h

/-- The children of a node are visited until none is open. -/
theorem yields_children_moves {visit : Handle → Action (Walk ι) Unit}
    (hvisit : ∀ y w, (w.stage (x :: path)).Valid → (w.stage (x :: path)).Opens y →
      w.workspace.tree.contextOf (x :: path) = context → (visit y).Yields w
        (fun _ w' => Visits cs y (w.stage (x :: path)) (w'.stage (x :: path))) (fun _ _ => True))
    (n : Nat) (hw : (w.stage (x :: path)).Valid)
    (hcontext : w.workspace.tree.contextOf (x :: path) = context) :
    (children visit x n).Yields w
      (fun _ w' => Moves cs (x :: path) (w.stage (x :: path)) (w'.stage (x :: path)) ∧
        (w'.stage (x :: path)).Done x) (fun _ _ => True) := by
  induction n generalizing w with
  | zero => trivial
  | succ n ih =>
    rw [yields_children_succ]
    split
    · next hnone => exact ⟨.refl, done_of_firstOpenChild_eq_none hnone⟩
    · next y hsome =>
      refine (hvisit y w hw (opens_of_firstOpenChild_eq_some hw hsome) hcontext).mono ?_
        fun _ _ h => h
      intro _ w' hvisits
      have hmoves : Moves cs (x :: path) (w.stage (x :: path)) (w'.stage (x :: path)) :=
        hvisits.moves
      have hcontext' : w'.workspace.tree.contextOf (x :: path) = context := by
        rw [← hcontext]
        exact contextOf_congr fun y hy =>
          (hmoves.retains hw).vendorAt (hw.trail.live hw.linked hy)
      refine (ih (hmoves.valid hw) hcontext').mono ?_ fun _ _ h => h
      rintro _ w'' ⟨hmoves', hdone⟩
      exact ⟨hmoves.trans hmoves', hdone⟩

/-- A visit makes the moves of a visit. -/
theorem yields_visit_moves (n : Nat) (hw : (w.stage path).Valid) (hx : (w.stage path).Opens x)
    (hcontext : w.workspace.tree.contextOf path = context) :
    (visit (Cover.plan support ms) n context x).Yields w
      (fun _ w' => Visits (Cover.needed support ms.flatten) x (w.stage path) (w'.stage path))
      (fun _ _ => True) := by
  induction n generalizing context x path w with
  | zero => trivial
  | succ n ih =>
    obtain ⟨m, hm⟩ := hx.live hw
    rw [yields_visit_covers hm]
    split
    · next hforeign =>
      rw [← hcontext] at hforeign
      exact Visits.pruned hx hforeign
    · next hown =>
      rw [← hcontext, Bool.not_eq_true] at hown
      have henter : (w.stage (x :: path)).Valid := (Move.enter hx hown : Move [] _ _).valid hw
      have hcontext' : w.workspace.tree.contextOf (x :: path) =
          (context <|> w.workspace.tree.vendorAt x) := by
        rw [contextOf_cons, hcontext]
      refine (yields_children_moves (fun y w hw hy hc => ih hw hy hc) n henter hcontext').mono ?_
        fun _ _ h => h
      rintro _ w' ⟨hmoves, hdone⟩
      have hw' := hmoves.valid henter
      refine (yields_finalize_covers hw').mono ?_ fun _ _ _ => trivial
      rintro _ w'' ⟨htends, hfinal⟩
      obtain ⟨hbuds, hdone'⟩ := moves_of_buds hw' rfl hdone htends.buds
      have hthrough := Visits.through hx hown (hmoves.trans hbuds) rfl hdone' htends.settled
      have hstage : w''.stage path = ⟨path, w''.workspace.tree, w'.finalized.insert x⟩ := by
        rw [← hfinal]
        rfl
      rw [hstage]
      exact hthrough

end Walk

/-! ## Walks -/

/-- The stage at which a walk over a tree begins. -/
def Stage.start (t : Tree) : Stage :=
  ⟨[], t, {}⟩

theorem Stage.valid_start {t : Tree} (ht : t.Linked) (hroot : t.Rooted) :
    (Stage.start t).Valid where
  linked := ht
  rooted := hroot
  trail := .nil
  unmarked := by simp [start]
  agrees := by simp [start]
  live := fun _ hx => absurd hx Std.HashSet.not_mem_empty
  closed := fun _ _ _ hq => absurd hq Std.HashSet.not_mem_empty

theorem Stage.opens_root (t : Tree) : (Stage.start t).Opens t.root :=
  ⟨.root, Std.HashSet.not_mem_empty, by simp [start]⟩

/-- The moves of a whole walk: they end when the root is finalized. -/
structure Completes (cs : List Cover) (t : Tree) (s : Stage) : Prop where
  moves : Moves cs [] (Stage.start t) s
  root : t.root ∈ s.finalized

section Completes

variable {t : Tree} {s : Stage} {x : Handle}

theorem Completes.valid (ht : t.Linked) (hroot : t.Rooted) (h : Completes cs t s) : s.Valid :=
  h.moves.valid (Stage.valid_start ht hroot)

theorem Completes.retains (ht : t.Linked) (hroot : t.Rooted) (h : Completes cs t s) :
    Retains t s.tree :=
  h.moves.retains (Stage.valid_start ht hroot)

/-- At the end everything beneath the root is finalized. -/
theorem Completes.mem_finalized (ht : t.Linked) (hroot : t.Rooted) (h : Completes cs t s)
    (hx : s.tree.Beneath x s.tree.root) : x ∈ s.finalized := by
  refine (h.valid ht hroot).mem_of_beneath ?_ hx
  rw [(h.retains ht hroot).root]
  exact h.root

end Completes

/-- A plan of covers that is applied with success makes the moves of a whole walk. -/
theorem completes_of_apply {w : Workspace ι} (hw : w.tree.Linked) (hroot : w.tree.Rooted)
    {steps : Nat} (hok : (((Cover.plan support ms).apply steps).run w).result = .ok ()) :
    ∃ s, Completes (Cover.needed support ms.flatten) w.tree s ∧
      s.tree = (((Cover.plan support ms).apply steps).run w).state.tree := by
  have hyields : ((Cover.plan support ms).walk steps w.tree.root none).Yields (Walk.start w)
      (fun _ w' => Completes (Cover.needed support ms.flatten) w.tree (w'.stage []))
      (fun _ _ => True) := by
    unfold Plan.walk
    rw [yields_bind]
    have hstart : ((Walk.start w).stage []).Valid := Stage.valid_start hw hroot
    refine (yields_visit_moves steps hstart (Stage.opens_root w.tree) rfl).mono ?_ fun _ _ h => h
    exact fun _ w' h => ⟨h.moves, h.mem_finalized rfl⟩
  exact ⟨_, hyields.of_ok hok, rfl⟩

end StyleTree
