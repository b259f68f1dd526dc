import StyleTree.Proofs.Walk.Keeps
import StyleTree.Proofs.Walk.Pruned
import StyleTree.Proofs.Reachable

/-!
# Walks with quiet handlers

A handler is quiet if it succeeds and leaves the tree as it is.  With quiet handlers the only thing
that happens to a tree on a walk is that nodes of the wrong vendor are pruned, and the walk has an
end.

A visit of a whole branch prunes it where it is to be cut and finalizes what remains of it, each
node after those below it: this is `yields_visit_of_quiet`, by induction on the branch.  For the
children of one node it needs an invariant, because the list of children loses nodes while the walk
takes one child after the other: at each turn the list consists of children that are finalized,
followed by those whose branches are still as they were (`yields_children_of_quiet`).

* `applyAt_of_quiet`: what a walk makes of every node of a tree, and which nodes it finalizes in
  which order, in terms of `Pruned`.
-/

namespace StyleTree

open StyleTree.Action StyleTree.Tree

section General

variable [Data] {ι : Type} {plan : Plan ι} {id : Handle} {n : Nat} {context : Option String}
  {b : Branch}

/-- A handler that succeeds and leaves the tree as it is. -/
def Handler.Quiet (handler : Handler ι) : Prop :=
  ∀ id w, ((handler id).run w).result = .ok () ∧ ((handler id).run w).state.tree = w.tree

theorem Handler.Quiet.holds {handler : Handler ι} (h : Handler.Quiet handler) (t : Tree)
    (id : Handle) : (handler id).Holds (fun w => w.tree = t) fun _ => False := by
  intro w hw
  obtain ⟨hok, htree⟩ := h id w
  rw [Yields, hok]
  exact htree.trans hw

namespace Walk

variable {w w' w'' : Walk ι} {ps qs fs gs : List Handle}

/-! ## What a visit does -/

/-- From one state of a walk to another, the nodes `ps` are pruned and the nodes `fs` are finalized,
both in this order. -/
structure Visited (ps fs : List Handle) (w w' : Walk ι) : Prop where
  tree : w'.workspace.tree = w.workspace.tree.cut ps
  started : w'.started.map Start.id = fs.reverse ++ w.started.map Start.id
  finalized : ∀ x, x ∈ w'.finalized ↔ x ∈ w.finalized ∨ x ∈ fs

theorem Visited.refl (w : Walk ι) : Visited [] [] w w :=
  ⟨rfl, rfl, by simp⟩

theorem Visited.trans (h : Visited ps fs w w') (h' : Visited qs gs w' w'') :
    Visited (ps ++ qs) (fs ++ gs) w w'' where
  tree := by rw [h'.tree, h.tree, cut_append]
  started := by rw [h'.started, h.started, List.reverse_append, List.append_assoc]
  finalized := fun x => by rw [h'.finalized, h.finalized, List.mem_append, or_assoc]

/-- A change of the workspace that leaves the tree as it is. -/
theorem Visited.of_tree_eq {s : Workspace ι} (h : s.tree = w.workspace.tree) :
    Visited [] [] w { w with workspace := s } :=
  ⟨h, rfl, by simp⟩

theorem holds_runModules_of_quiet (hplan : plan.All Handler.Quiet) (phase : Phase) (id : Handle)
    (t : Tree) : (runModules plan.support phase id plan.modules).Holds
      (fun s => s.tree = t) fun _ => False :=
  holds_runModules fun module hm p hp handler hh => (hplan module hm p hp handler hh).holds t id

theorem yields_arrive_of_quiet (hplan : plan.All Handler.Quiet) {s : Workspace ι} {node : Node}
    (hid : s.tree.get? id = some node) :
    (arrive plan id).Yields s (fun own s' => own = node.vendor ∧ s'.tree = s.tree)
      (fun _ _ => False) := by
  rw [yields_arrive_iff, hid]
  refine ⟨fun n hn => ?_, by simp⟩
  obtain rfl : node = n := Option.some.inj hn
  split
  · refine (holds_runModules_of_quiet hplan .before id s.tree s rfl).mono ?_ fun _ _ h => h
    rintro _ s' hs
    rw [hs, hid]
    refine ⟨fun n hn => ?_, by simp⟩
    obtain rfl : node = n := Option.some.inj hn
    exact ⟨rfl, rfl⟩
  · exact ⟨rfl, rfl⟩

theorem yields_finalize_of_quiet (hplan : plan.All Handler.Quiet) (id : Handle) (w : Walk ι) :
    (finalize plan id).Yields w (fun _ w' => Visited [] [id] w w') (fun _ _ => False) := by
  rw [yields_finalize_iff]
  refine (holds_runModules_of_quiet hplan .after id w.workspace.tree w.workspace rfl).mono ?_
    fun _ _ h => h
  rintro _ s hs
  refine ⟨hs, rfl, fun x => ?_⟩
  rw [Std.HashSet.mem_insert, List.mem_singleton, beq_iff_eq, or_comm, eq_comm]

/-! ## The children of a node -/

/-- The children of a node that are still to be visited: the others come before them and are
finalized, and the branches of these are whole and open. -/
structure Ahead (w : Walk ι) (id : Handle) (bs : List Branch) : Prop where
  linked : w.workspace.tree.Linked
  children : ∃ node done, w.workspace.tree.get? id = some node ∧
    node.children = done ++ bs.map Branch.id ∧ ∀ c ∈ done, c ∈ w.finalized
  shows : ∀ b ∈ bs, w.workspace.tree.Shows b
  unmarked : ∀ b ∈ bs, ∀ x ∈ b.handles, x ∉ w.finalized

variable {bs : List Branch}

/-- The next child is the first that is ahead. -/
theorem Ahead.firstOpenChild (h : w.Ahead id bs) :
    w.firstOpenChild id = (bs.map Branch.id).head? := by
  obtain ⟨node, done, hid, hchildren, hdone⟩ := h.children
  have hnone : done.find? (fun c => !Marks.has w.finalized c) = none := by
    rw [List.find?_eq_none]
    intro c hc
    simpa using hdone c hc
  unfold Walk.firstOpenChild
  rw [hid, Option.map_some, Option.bind_some, hchildren, List.find?_append, hnone, Option.none_or]
  cases bs with
  | nil => rfl
  | cons b bs =>
    refine List.find?_cons_of_pos ?_
    simpa using h.unmarked b (List.mem_cons_self ..) b.id (Branch.id_mem_handles b)

theorem Ahead.hangs (h : w.Ahead id bs) (hb : b ∈ bs) : w.workspace.tree.Hangs b.id id := by
  obtain ⟨node, done, hid, hchildren, -⟩ := h.children
  refine h.linked.hangs_of_lists id b.id ⟨node, hid, ?_⟩
  rw [hchildren]
  exact List.mem_append_right _ (List.mem_map_of_mem hb)

/-- What is beneath a child that comes later is not beneath the first. -/
theorem Ahead.not_beneath {c : Branch} {x : Handle} (h : w.Ahead id (b :: bs)) (hc : c ∈ bs)
    (hx : w.workspace.tree.Beneath x c.id) : ¬ w.workspace.tree.Beneath x b.id := by
  have hb := h.hangs (List.mem_cons_self ..)
  obtain ⟨node, done, hid, hchildren, -⟩ := h.children
  have hnodup := h.linked.nodup id node hid
  rw [hchildren, List.map_cons] at hnodup
  have hnot := (List.nodup_cons.mp (List.nodup_append.mp hnodup).2.1).1
  refine h.linked.not_beneath_of_siblings (h.hangs (List.mem_cons_of_mem _ hc)) hb ?_ hx
  intro he
  exact hnot (he ▸ List.mem_map_of_mem hc)

/-- Once the first child has been visited, the others are ahead. -/
theorem Ahead.next (h : w.Ahead id (b :: bs))
    (hv : Visited (b.pruned context) (b.finished context) w w') : w'.Ahead id bs := by
  have hlinked := h.linked
  have hb := h.shows b (List.mem_cons_self ..)
  have hlive : ∀ p ∈ b.pruned context, ∃ n, w.workspace.tree.get? p = some n :=
    hb.live_of_mem_pruned
  have hin : ∀ p ∈ b.pruned context, w.workspace.tree.Beneath p b.id := fun p hp =>
    (hb.mem_handles_iff hlinked).mp (Branch.mem_handles_of_mem_pruned hp)
  have hbeneath : ∀ c ∈ bs, ∀ x ∈ c.handles, w.workspace.tree.Beneath x c.id := fun c hc x hx =>
    ((h.shows c (List.mem_cons_of_mem _ hc)).mem_handles_iff hlinked).mp hx
  refine ⟨hv.tree ▸ hlinked.cut hlive, ?_, ?_, ?_⟩
  · obtain ⟨node, done, hid, hchildren, hdone⟩ := h.children
    refine ⟨{ node with children := node.children.filter fun c => c ∉ b.pruned context },
      (done ++ [b.id]).filter fun c => c ∉ b.pruned context, ?_, ?_, ?_⟩
    · rw [hv.tree, get?_cut_of_not_beneath hlinked hlive, hid, Option.map_some]
      intro p hp hidp
      exact hlinked.not_beneath_of_hangs (h.hangs (List.mem_cons_self ..)) (hidp.trans (hin p hp))
    · have hrest : (bs.map Branch.id).filter (fun c => c ∉ b.pruned context) =
          bs.map Branch.id := by
        rw [List.filter_eq_self]
        intro x hx
        obtain ⟨c, hc, rfl⟩ := List.mem_map.mp hx
        exact decide_eq_true fun hmem => h.not_beneath hc (Beneath.refl _ c.id) (hin c.id hmem)
      rw [hchildren, List.map_cons, ← List.singleton_append, ← List.append_assoc,
        List.filter_append, hrest]
    · -- the child just visited is pruned, or finalized like those before it
      intro c hc
      obtain ⟨hc, hout⟩ := List.mem_filter.mp hc
      rw [hv.finalized]
      rcases List.mem_append.mp hc with hc | hc
      · exact Or.inl (hdone c hc)
      · obtain rfl := List.mem_singleton.mp hc
        exact Or.inr (Branch.id_mem_finished (of_decide_eq_true hout))
  · intro c hc
    rw [hv.tree]
    refine (h.shows c (List.mem_cons_of_mem _ hc)).congr fun x hx =>
      get?_cut_of_not_lists hlinked hlive ?_ ?_
    · exact fun p hp hxp => h.not_beneath hc (hbeneath c hc x hx) (hxp.trans (hin p hp))
    · -- a pruned node that hangs on a later branch would be beneath both children
      intro p hp hpx
      exact h.not_beneath hc ((Beneath.of_hangs hpx).trans (hbeneath c hc x hx)) (hin p hp)
  · intro c hc x hx hfinal
    rcases (hv.finalized x).mp hfinal with hfinal | hfinal
    · exact h.unmarked c (List.mem_cons_of_mem _ hc) x hx hfinal
    · refine h.not_beneath hc (hbeneath c hc x hx) ?_
      exact (hb.mem_handles_iff hlinked).mp (Branch.mem_handles_of_mem_finished hfinal)

/-- The children that are ahead are visited one after the other. -/
theorem yields_children_of_quiet (context : Option String) {visit : Handle → Action (Walk ι) Unit}
    (hvisit : ∀ b ∈ bs, ∀ w : Walk ι, w.workspace.tree.Linked → w.workspace.tree.Shows b →
      (∀ x ∈ b.handles, x ∉ w.finalized) → (visit b.id).Yields w
        (fun _ w' => Visited (b.pruned context) (b.finished context) w w') (fun _ _ => False))
    (h : w.Ahead id bs) (hn : bs.length < n) :
    (children visit id n).Yields w (fun _ w' =>
      Visited (bs.flatMap (Branch.pruned context)) (bs.flatMap (Branch.finished context)) w w')
      (fun _ _ => False) := by
  induction bs generalizing w n with
  | nil =>
    obtain ⟨n, rfl⟩ := Nat.exists_eq_add_one.mpr hn
    rw [yields_children_succ, h.firstOpenChild]
    exact Visited.refl w
  | cons b bs ih =>
    obtain ⟨n, rfl⟩ := Nat.exists_eq_add_one.mpr (Nat.zero_lt_of_lt hn)
    rw [yields_children_succ, h.firstOpenChild, List.map_cons, List.head?_cons]
    refine (hvisit b (List.mem_cons_self ..) w h.linked (h.shows b (List.mem_cons_self ..))
      (h.unmarked b (List.mem_cons_self ..))).mono ?_ fun _ _ h => h
    rintro _ w' hv
    have hrest := ih (fun c hc => hvisit c (List.mem_cons_of_mem _ hc)) (h.next hv)
      (Nat.lt_of_succ_lt_succ hn)
    exact hrest.mono (fun _ w'' hv' => hv.trans hv') fun _ _ h => h

/-! ## A branch -/

/-- At the beginning all children of a node are ahead. -/
theorem ahead_children {node : Node} (hw : w.workspace.tree.Linked)
    (hb : w.workspace.tree.Shows ⟨id, node, bs⟩)
    (hopen : ∀ x ∈ (Branch.mk id node bs).handles, x ∉ w.finalized) : w.Ahead id bs := by
  obtain ⟨hnode, hchildren, hbs⟩ := hb
  refine ⟨hw, ⟨node, [], hnode, hchildren.symm, by simp⟩, hbs, fun b hb x hx => hopen x ?_⟩
  rw [Branch.handles_mk]
  exact List.mem_cons_of_mem _ (List.mem_flatMap.mpr ⟨b, hb, hx⟩)

/-- A visit of a whole branch prunes it where it is to be cut and finalizes what remains of it, each
node after those below it.  As many steps as there are nodes are enough, and one more. -/
theorem yields_visit_of_quiet (hplan : plan.All Handler.Quiet) (b : Branch)
    (hw : w.workspace.tree.Linked) (hb : w.workspace.tree.Shows b)
    (hopen : ∀ x ∈ b.handles, x ∉ w.finalized) (hn : b.handles.length < n) :
    (visit plan n context b.id).Yields w
      (fun _ w' => Visited (b.pruned context) (b.finished context) w w') (fun _ _ => False) := by
  induction b using Branch.induction generalizing n context w with
  | h id node bs ih =>
    obtain ⟨n, rfl⟩ := Nat.exists_eq_add_one.mpr (Nat.zero_lt_of_lt hn)
    have hlength : (bs.flatMap Branch.handles).length < n := by
      rw [Branch.handles_mk, List.length_cons] at hn
      omega
    rw [yields_visit_succ]
    refine (yields_arrive_of_quiet hplan hb.get?).mono ?_ fun _ _ h => h
    rintro _ s ⟨rfl, hs⟩
    have hsame : Visited [] [] w { w with workspace := s } := Visited.of_tree_eq hs
    rw [Branch.pruned_mk, Branch.finished_mk, Branch.node_mk]
    split
    · refine Edit.yields_remove.mono ?_ ?_
      · rintro _ t ⟨-, -, rfl⟩
        exact ⟨congrArg (fun t => t.prune id) hs, rfl, by simp⟩
      · rintro _ t ⟨hnone, -⟩
        rw [hs, hb.get?] at hnone
        exact absurd hnone (by simp)
    · refine Yields.mono (yields_children_of_quiet (context <|> node.vendor)
        (fun b hb w hw hshows hopen => ?_) (ahead_children (hs ▸ hw) (hs ▸ hb) hopen)
        (Nat.lt_of_le_of_lt (Branch.length_le_length_handles bs) hlength)) ?_ fun _ _ h => h
      · exact ih b hb hw hshows hopen (Nat.lt_of_le_of_lt (Branch.length_handles_le hb) hlength)
      · rintro _ w' hv
        refine (yields_finalize_of_quiet hplan id w').mono ?_ fun _ _ h => h
        rintro _ w'' hv'
        simpa using (hsame.trans hv).trans hv'

end Walk

/-! ## A walk -/

/-- A walk with quiet handlers prunes what `pruned` says and finalizes what `finished` says. -/
theorem Plan.yields_walk_of_quiet (hplan : plan.All Handler.Quiet) {w : Workspace ι}
    (hw : w.tree.Linked) (hb : w.tree.Shows b) (context : Option String) (hn : w.tree.bound < n) :
    (plan.walk n b.id context).Yields (Walk.start w)
      (fun _ w' => Walk.Visited (b.pruned context) (b.finished context) (Walk.start w) w')
      (fun _ _ => False) := by
  unfold Plan.walk
  rw [yields_bind]
  refine (Walk.yields_visit_of_quiet hplan b hw hb (fun _ _ => Std.HashSet.not_mem_empty)
    (Nat.lt_of_le_of_lt (hb.length_handles_le hw) hn)).mono ?_ fun _ _ h => h
  exact fun _ _ hv => hv

open Classical in
/-- If all handlers are quiet, then the plan is applied with success.  The pruned nodes are those
that are foreign and have no pruned node above them.  They and everything beneath them end without
parent and children; every other node only loses the pruned nodes from its children.  The later
phase has started once on each node that is neither pruned nor beneath a pruned node, in the
postorder of what remains. -/
theorem applyAt_of_quiet (hplan : plan.All Handler.Quiet) {w : Workspace ι} (hw : w.tree.Reachable)
    {node : Node} (hid : w.tree.get? id = some node) (context : Option String) {steps : Nat}
    (hsteps : w.tree.bound < steps) :
    let t := w.tree
    let o := (plan.applyAt steps id context).run w
    let s := ((plan.walk steps id context).run (Walk.start w)).state
    let Gone := fun x => ∃ p, t.Pruned context id p ∧ t.Beneath x p
    o.result = .ok () ∧ s.workspace = o.state ∧
    (∀ x, t.Pruned context id x ↔ t.Foreign context id x ∧
      ∀ y, t.Beneath y id → t.Beneath x y → y ≠ x → ¬ t.Pruned context id y) ∧
    o.state.tree.root = t.root ∧
    (∀ x, o.state.tree.get? x = (t.get? x).map fun n =>
      if Gone x then { n with parent := none, children := [] }
      else { n with children := n.children.filter fun c => ¬ t.Pruned context id c }) ∧
    (s.started.map Start.id).Nodup ∧
    (∀ x, x ∈ s.started.map Start.id ↔ t.Beneath x id ∧ ¬ Gone x) ∧
    (¬ t.Pruned context id id → ∃ b, o.state.tree.branch? id = some b ∧
      (s.started.map Start.id).reverse = b.postorder) := by
  intro t o s Gone
  have hlinked : t.Linked := hw.linked
  obtain ⟨b, -, rfl, hb⟩ := hlinked.exists_branch? hid
  have hlive : ∀ p ∈ b.pruned context, ∃ n, t.get? p = some n := hb.live_of_mem_pruned
  have hpruned : ∀ x, x ∈ b.pruned context ↔ t.Pruned context b.id x := fun x =>
    hb.mem_pruned_iff hlinked
  obtain ⟨_, hok, htree, hstarted, -⟩ :=
    (Plan.yields_walk_of_quiet hplan hlinked hb context hsteps).exists_ok
  have hstarted' : s.started.map Start.id = (b.finished context).reverse :=
    hstarted.trans (List.append_nil _)
  have htree' : o.state.tree = t.cut (b.pruned context) := htree
  have hgone : ∀ x, Gone x ↔ ∃ p ∈ b.pruned context, t.Beneath x p := fun x =>
    exists_congr fun p => and_congr_left' (hpruned p).symm
  refine ⟨hok, rfl, fun x => pruned_iff hlinked, ?_, fun x => ?_, ?_, fun x => ?_, fun htop => ?_⟩
  · rw [htree', root_cut]
  · rw [htree']
    by_cases hx : Gone x
    · obtain ⟨p, hp, hxp⟩ := (hgone x).mp hx
      simp only [if_pos hx]
      exact get?_cut_of_beneath hlinked hlive hp hxp
    · simp only [if_neg hx, ← hpruned]
      exact get?_cut_of_not_beneath hlinked hlive fun p hp hxp => hx ((hgone x).mpr ⟨p, hp, hxp⟩)
  · rw [hstarted', List.nodup_reverse]
    exact hb.nodup_finished hlinked context
  · rw [hstarted', List.mem_reverse, hb.mem_finished_iff hlinked, hgone]
    simp only [not_exists, not_and]
  · rw [hstarted', List.reverse_reverse, htree']
    rcases hb.remains hlinked context with ⟨htop', -⟩ | ⟨-, d, hid, hd, hfinished⟩
    · exact absurd ((hpruned b.id).mp (htop' ▸ List.mem_singleton_self b.id)) htop
    · exact ⟨d, hid ▸ hd.branch? (hlinked.cut hlive), hfinished⟩

end General

/-- A client that places a rule of one vendor below the root, with a declaration of another vendor
and one of none. -/
def mixedRule : Action (Workspace Nat) Handle := do
  let rule ← (Edit.plant (.atRule "-webkit-keyframes" "a"
    (some [.declaration "-moz-b" "c", .declaration "d" "e"]))).onWorkspace
  (Edit.append (← Action.get).tree.root (.node rule)).onWorkspace

/-- A plan that counts declarations. -/
def counting : Plan Nat where
  modules := [[(Plugin.new "count" none).register .declaration .after none fun _ =>
    Action.modify fun w => { w with client := w.client + 1 }]]
  support := none

/-- The declaration of the other vendor is taken out and passed over. -/
theorem applyAt_of_quiet_counting :
    let w := (mixedRule.run ⟨Tree.empty, 0⟩).state
    let o := (counting.applyAt 6 w.tree.root none).run w
    let s := ((counting.walk 6 w.tree.root none).run (Walk.start w)).state
    o.result = .ok () ∧ (w.tree.get? ⟨3, 1⟩).bind Node.parent = some ⟨2, 1⟩ ∧
      (o.state.tree.get? ⟨3, 1⟩).bind Node.parent = none ∧ ⟨3, 1⟩ ∉ s.started.map Start.id := by
  have hquiet : counting.All Handler.Quiet := Plan.all_register fun _ _ => ⟨rfl, rfl⟩
  have hreachable : (mixedRule.run ⟨Tree.empty, 0⟩).state.tree.Reachable :=
    .run (.bind (.edit (.plant _)) fun rule => .bind .look fun w =>
      .edit (.append w.tree.root (.node rule))) .empty
  have hsteps : (mixedRule.run ⟨Tree.empty, 0⟩).state.tree.bound < 6 := by decide +kernel
  have hparent : ((mixedRule.run ⟨Tree.empty, 0⟩).state.tree.get? ⟨3, 1⟩).bind Node.parent =
      some ⟨2, 1⟩ := by decide +kernel
  have hcut : ((mixedRule.run ⟨Tree.empty, 0⟩).state.tree.branch?
      (mixedRule.run ⟨Tree.empty, 0⟩).state.tree.root).map (Branch.pruned none) =
      some [⟨3, 1⟩] := by decide +kernel
  -- from here on it does not matter how the tree was made
  generalize (mixedRule.run ⟨Tree.empty, 0⟩).state = w at hreachable hsteps hparent hcut ⊢
  intro w o s
  obtain ⟨n, hroot⟩ := hreachable.linked.root
  obtain ⟨b, hb, hid, hshows⟩ := hreachable.linked.exists_branch? hroot
  have hpruned : w.tree.Pruned none w.tree.root ⟨3, 1⟩ := by
    rw [hb] at hcut
    rw [← hid, ← hshows.mem_pruned_iff hreachable.linked, Option.some.inj hcut]
    exact List.mem_singleton_self _
  have hgone : ∃ p, w.tree.Pruned none w.tree.root p ∧ w.tree.Beneath ⟨3, 1⟩ p :=
    ⟨⟨3, 1⟩, hpruned, Beneath.refl _ _⟩
  obtain ⟨hok, -, -, -, hget, -, hstarted, -⟩ :=
    applyAt_of_quiet hquiet hreachable hroot none hsteps
  refine ⟨hok, hparent, ?_, fun hmem => ((hstarted _).mp hmem).2 hgone⟩
  rw [hget, Option.bind_map]
  cases w.tree.get? ⟨3, 1⟩ with
  | none => rfl
  | some m =>
    rw [Option.bind_some, Function.comp_apply, if_pos hgone]

end StyleTree
