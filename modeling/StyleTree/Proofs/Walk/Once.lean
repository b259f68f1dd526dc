import StyleTree.Proofs.Walk.Local

/-!
# A walk finalizes every node once

While a walk goes on, its handlers change the lists of children that it is going through.  Still, if
all handlers are local, a walk that ends has finalized every node that the root then has beneath it,
each of them once and each after its children.

The argument follows no position in any list of children.  `InOrder` is what holds whenever a visit
begins or ends:

* what is finalized is closed under children, so that nothing beneath a finalized node is open;
* what is finalized is what the later phase has started on, once, with no child open at that moment.

A visit of a node keeps this (`yields_visit`), because a node that is finalized has no open child at
that moment, a local handler gives children to nobody but the parent of its node, and that parent is
not finalized as long as the node is not.  `Passes` is the frame: of the nodes that were there
before, a visit finalizes only those beneath the node visited.  So no visit finalizes a node above
it, which is on the way and will be finalized later.
-/

namespace StyleTree

open StyleTree.Action StyleTree.Tree

section General

variable [Data] {ι : Type} {plan : Plan ι} {id c x : Handle}

namespace Walk

variable {w w' w'' : Walk ι}

/-! ## What holds between visits -/

/-- What is finalized is closed under children, and is what the later phase has started on, once,
with no open child left. -/
structure InOrder (w : Walk ι) : Prop where
  linked : w.workspace.tree.Linked
  live : ∀ x ∈ w.finalized, ∃ n, w.workspace.tree.get? x = some n
  closed : ∀ q x, w.workspace.tree.Lists q x → q ∈ w.finalized → x ∈ w.finalized
  started : ∀ x, x ∈ w.started.map Start.id ↔ x ∈ w.finalized
  nodup : (w.started.map Start.id).Nodup
  settled : ∀ s ∈ w.started, s.pending = []

/-- From one state of a walk to another, the old nodes are kept, and those finalized in between lie
beneath a node. -/
structure Passes (id : Handle) (w w' : Walk ι) : Prop where
  kept : Kept w.workspace.tree w'.workspace.tree
  mono : ∀ x ∈ w.finalized, x ∈ w'.finalized
  beneath : ∀ x, (∃ n, w.workspace.tree.get? x = some n) → x ∈ w'.finalized →
    x ∈ w.finalized ∨ w.workspace.tree.Beneath x id

theorem Passes.refl (id : Handle) (w : Walk ι) : Passes id w w :=
  ⟨Kept.refl _, fun _ h => h, fun _ _ h => Or.inl h⟩

theorem Passes.trans (hw : w.workspace.tree.Linked) (h : Passes id w w') (h' : Passes id w' w'') :
    Passes id w w'' := by
  refine ⟨h.kept.trans h'.kept, fun x hx => h'.mono x (h.mono x hx), fun x hx hf => ?_⟩
  rcases h'.beneath x (h.kept.live hx) hf with hf | hb
  · exact h.beneath x hx hf
  · exact Or.inr (h.kept.beneath hw hx hb)

/-- What lies beneath a child lies beneath its parent. -/
theorem Passes.of_child (h : Passes c w w') (hc : w.workspace.tree.Hangs c id) : Passes id w w' :=
  ⟨h.kept, h.mono, fun x hx hf =>
    (h.beneath x hx hf).imp_right fun hb => hb.trans (Beneath.of_hangs hc)⟩

/-- A visit of a child does not finalize the parent. -/
theorem Passes.not_mem_of_child (hw : w.workspace.tree.Linked) (h : Passes c w w')
    (hc : w.workspace.tree.Hangs c id) (hid : ∃ n, w.workspace.tree.get? id = some n)
    (hopen : id ∉ w.finalized) : id ∉ w'.finalized := by
  intro hf
  rcases h.beneath id hid hf with hf | hb
  · exact hopen hf
  · exact hw.not_beneath_of_hangs hc hb

/-! ## Handlers -/

variable {s : Workspace ι}

/-- Work around a node that is not finalized leaves a walk in order: the one old node that may have
got a child is the parent, and it is not finalized either. -/
theorem InOrder.around (hw : w.InOrder) (hopen : id ∉ w.finalized)
    (h : Around id w.workspace.tree s.tree) : InOrder { w with workspace := s } where
  linked := h.linked
  live := fun x hx => h.kept.live (hw.live x hx)
  closed := by
    intro q x hl hq
    rcases h.lists q x (hw.live q hq) hl with hl | hh
    · exact hw.closed q x hl hq
    · obtain ⟨n, hn⟩ := hw.live q hq
      exact absurd (hw.closed q id (hw.linked.lists_of_hangs_of_live hh hn) hq) hopen
  started := hw.started
  nodup := hw.nodup
  settled := hw.settled

theorem Passes.around (h : Around id w.workspace.tree s.tree) :
    Passes id w { w with workspace := s } :=
  ⟨h.kept, fun _ hx => hx, fun _ _ hx => Or.inl hx⟩

/-- Local handlers that are run on a node work around it. -/
theorem keeps_runModules_around (hplan : plan.All Handler.Local) (phase : Phase) {t : Tree}
    (hid : ∃ n, t.get? id = some n) :
    (runModules plan.support phase id plan.modules).Keeps fun s => Around id t s.tree :=
  holds_runModules fun module hm p hp handler hh => (hplan module hm p hp handler hh).keeps hid

theorem yields_arrive (hplan : plan.All Handler.Local) (hs : s.tree.Linked)
    (hid : ∃ n, s.tree.get? id = some n) :
    (arrive plan id).Yields s (fun _ s' => Around id s.tree s'.tree) (fun _ _ => True) := by
  refine yields_arrive_iff.mpr ⟨fun n _ => ?_, fun _ => trivial⟩
  have hrefl := Around.refl hs id
  split
  · exact (keeps_runModules_around hplan .before hid s hrefl).mono
      (fun _ s' h => ⟨fun _ _ => h, fun _ => trivial⟩) fun _ _ _ => trivial
  · exact hrefl

/-! ## Visits -/

theorem openChildren_of_firstOpenChild_eq_none (h : w.firstOpenChild id = none) :
    w.openChildren id = [] := by
  unfold firstOpenChild at h
  unfold openChildren
  cases hn : w.workspace.tree.get? id with
  | none => rfl
  | some n =>
    rw [hn, Option.map_some, Option.bind_some, List.find?_eq_none] at h
    rw [Option.map_some, Option.getD_some, List.filter_eq_nil_iff]
    exact h

theorem lists_of_firstOpenChild_eq_some (h : w.firstOpenChild id = some c) :
    w.workspace.tree.Lists id c ∧ c ∉ w.finalized := by
  unfold firstOpenChild at h
  obtain ⟨cs, hcs, hfind⟩ := Option.bind_eq_some_iff.mp h
  obtain ⟨n, hn, rfl⟩ := Option.map_eq_some_iff.mp hcs
  refine ⟨⟨n, hn, List.mem_of_find?_eq_some hfind⟩, fun hc => ?_⟩
  have hopen := List.find?_some hfind
  rw [Marks.has_hashSet, Std.HashSet.contains_iff_mem.mpr hc] at hopen
  exact absurd hopen (by simp)

/-- What is listed before the first open child is finalized. -/
theorem exists_append_of_firstOpenChild_eq_some (h : w.firstOpenChild id = some c) :
    ∃ n left right, w.workspace.tree.get? id = some n ∧ n.children = left ++ c :: right ∧
      ∀ z ∈ left, z ∈ w.finalized := by
  unfold firstOpenChild at h
  obtain ⟨cs, hcs, hfind⟩ := Option.bind_eq_some_iff.mp h
  obtain ⟨n, hn, rfl⟩ := Option.map_eq_some_iff.mp hcs
  obtain ⟨-, left, right, hlist, hleft⟩ := List.find?_eq_some_iff_append.mp hfind
  exact ⟨n, left, right, hn, hlist, fun z hz => by simpa using hleft z hz⟩

theorem mem_of_openChildren_eq_nil (h : w.openChildren id = [])
    (hl : w.workspace.tree.Lists id c) : c ∈ w.finalized := by
  obtain ⟨n, hn, hc⟩ := hl
  unfold openChildren at h
  rw [hn, Option.map_some, Option.getD_some, List.filter_eq_nil_iff] at h
  simpa using h c hc

/-- A node without open children is finalized. -/
theorem yields_finalize (hplan : plan.All Handler.Local) (hw : w.InOrder)
    (hid : ∃ n, w.workspace.tree.get? id = some n) (hopen : id ∉ w.finalized)
    (hchildren : w.openChildren id = []) :
    (finalize plan id).Yields w
      (fun _ w' => w'.InOrder ∧ Passes id w w' ∧ id ∈ w'.finalized) (fun _ _ => True) := by
  rw [yields_finalize_iff]
  refine (keeps_runModules_around hplan .after hid w.workspace (Around.refl hw.linked id)).mono ?_
    fun _ _ _ => trivial
  rintro _ s h
  have haround := hw.around hopen h
  refine ⟨⟨h.linked, ?_, ?_, ?_, ?_, ?_⟩, ⟨h.kept, ?_, ?_⟩, Std.HashSet.mem_insert_self⟩
  · intro x hx
    rcases Std.HashSet.mem_insert.mp hx with hx | hx
    · exact h.kept.live (eq_of_beq hx ▸ hid)
    · exact haround.live x hx
  · intro q x hl hq
    rw [Std.HashSet.mem_insert]
    rcases Std.HashSet.mem_insert.mp hq with hq | hq
    · obtain rfl := eq_of_beq hq
      rcases h.lists id x hid hl with hl | hh
      · have hmem : x ∈ w.finalized := mem_of_openChildren_eq_nil hchildren hl
        exact Or.inr hmem
      · exact absurd rfl (hw.linked.ne_of_hangs hh)
    · exact Or.inr (haround.closed q x hl hq)
  · intro x
    rw [List.map_cons, List.mem_cons, hw.started, Std.HashSet.mem_insert, beq_iff_eq, eq_comm]
  · rw [List.map_cons, List.nodup_cons, hw.started]
    exact ⟨hopen, hw.nodup⟩
  · intro start hstart
    rcases List.mem_cons.mp hstart with rfl | hstart
    · exact hchildren
    · exact hw.settled start hstart
  · exact fun x hx => Std.HashSet.mem_insert.mpr (Or.inr hx)
  · intro x _ hx
    rcases Std.HashSet.mem_insert.mp hx with hx | hx
    · rw [← eq_of_beq hx]
      exact Or.inr (Beneath.refl _ id)
    · exact Or.inl hx

/-- The children of a node are visited until none is open. -/
theorem yields_children {visit : Handle → Action (Walk ι) Unit}
    (hvisit : ∀ c w, w.InOrder → (∃ n, w.workspace.tree.get? c = some n) → c ∉ w.finalized →
      (visit c).Yields w (fun _ w' => w'.InOrder ∧ Passes c w w') (fun _ _ => True))
    (n : Nat) (hw : w.InOrder) (hid : ∃ n, w.workspace.tree.get? id = some n)
    (hopen : id ∉ w.finalized) :
    (children visit id n).Yields w
      (fun _ w' => w'.InOrder ∧ Passes id w w' ∧ id ∉ w'.finalized ∧ w'.openChildren id = [])
      (fun _ _ => True) := by
  induction n generalizing w with
  | zero => trivial
  | succ n ih =>
    rw [yields_children_succ]
    split
    · next hnone =>
      exact ⟨hw, Passes.refl id w, hopen, openChildren_of_firstOpenChild_eq_none hnone⟩
    · next c hsome =>
      obtain ⟨hlists, hc⟩ := lists_of_firstOpenChild_eq_some hsome
      have hhangs := hw.linked.hangs_of_lists id c hlists
      refine (hvisit c w hw hhangs.live hc).mono ?_ fun _ _ _ => trivial
      rintro _ w' ⟨hw', hpass⟩
      have hstill := hpass.not_mem_of_child hw.linked hhangs hid hopen
      refine (ih hw' (hpass.kept.live hid) hstill).mono ?_ fun _ _ _ => trivial
      rintro _ w'' ⟨hw'', hpass', hstill', hnone⟩
      exact ⟨hw'', (hpass.of_child hhangs).trans hw.linked hpass', hstill', hnone⟩

/-- A visit of an open node keeps a walk in order, and finalizes the node unless it is foreign. -/
theorem yields_visit (hplan : plan.All Handler.Local) (n : Nat) (context : Option String)
    (hw : w.InOrder) (hid : ∃ n, w.workspace.tree.get? id = some n) (hopen : id ∉ w.finalized) :
    (visit plan n context id).Yields w
      (fun _ w' => w'.InOrder ∧ Passes id w w' ∧ (context = none → id ∈ w'.finalized))
      (fun _ _ => True) := by
  induction n generalizing context id w with
  | zero => trivial
  | succ n ih =>
    rw [yields_visit_succ]
    refine (yields_arrive hplan hw.linked hid).mono ?_ fun _ _ _ => trivial
    rintro own s harrive
    have hw' := hw.around hopen harrive
    have hpass₀ := Passes.around harrive
    obtain ⟨m, hm⟩ := harrive.kept.live hid
    split
    · next hforeign =>
      refine Edit.yields_remove.mono ?_ fun _ _ _ => trivial
      rintro _ t ⟨-, -, rfl⟩
      have haround := Around.prune hw'.linked hm
      refine ⟨hw'.around hopen haround, hpass₀.trans hw.linked (Passes.around haround), ?_⟩
      rintro rfl
      exact absurd hforeign (by simp [isForeign])
    · refine (yields_children ?_ n hw' ⟨m, hm⟩ hopen).mono ?_ fun _ _ _ => trivial
      · intro c w hw hc hopen
        exact (ih (context <|> own) hw hc hopen).mono (fun _ _ h => ⟨h.1, h.2.1⟩) fun _ _ h => h
      · rintro _ w' ⟨hw', hpass, hstill, hnone⟩
        refine (yields_finalize hplan hw' (hpass.kept.live ⟨m, hm⟩) hstill hnone).mono ?_
          fun _ _ h => h
        rintro _ w'' ⟨hw'', hpass', hmem⟩
        have hpass₁ := hpass₀.trans hw.linked hpass
        exact ⟨hw'', hpass₁.trans hw.linked hpass', fun _ => hmem⟩

theorem inOrder_start {s : Workspace ι} (hs : s.tree.Linked) : (start s).InOrder where
  linked := hs
  live := fun x hx => absurd hx Std.HashSet.not_mem_empty
  closed := fun _ x _ hq => absurd hq Std.HashSet.not_mem_empty
  started := fun x =>
    ⟨fun hx => absurd hx (by simp [start]), fun hx => absurd hx Std.HashSet.not_mem_empty⟩
  nodup := List.nodup_nil
  settled := fun s hs => absurd hs (by simp [start])

/-- Everything beneath a finalized node is finalized. -/
theorem InOrder.mem_of_beneath (hw : w.InOrder) (hid : id ∈ w.finalized)
    (h : w.workspace.tree.Beneath x id) : x ∈ w.finalized := by
  induction h using Relation.ReflTransGen.head_induction_on with
  | refl => exact hid
  | head hh _ ih =>
    obtain ⟨n, hn⟩ := hw.live _ ih
    exact hw.closed _ _ (hw.linked.lists_of_hangs_of_live hh hn) ih

end Walk

theorem result_apply (plan : Plan ι) (steps : Nat) (w : Workspace ι) :
    ((plan.apply steps).run w).result =
      ((plan.walk steps w.tree.root none).run (Walk.start w)).result :=
  rfl

/-- If all handlers are local and the plan is applied to the end, then every node that the root has
beneath it at the end has been finalized: the later phase has started on it once, and whenever it
started on a node all children of the node had been finalized. -/
theorem finalized_once (hplan : plan.All Handler.Local) {w : Workspace ι} (hw : w.tree.Reachable)
    {steps : Nat} (hok : ((plan.apply steps).run w).result = .ok ()) :
    let s := ((plan.walk steps w.tree.root none).run (Walk.start w)).state
    s.workspace = ((plan.apply steps).run w).state ∧
    (∀ x ∈ s.workspace.tree.reached,
      x ∈ s.finalized ∧ (s.started.map Start.id).count x = 1) ∧
    ∀ start ∈ s.started, start.pending = [] := by
  intro s
  have hlinked := hw.linked
  have hyields : (plan.walk steps w.tree.root none).Yields (Walk.start w)
      (fun _ w' => w'.InOrder ∧ w'.workspace.tree.root = w.tree.root ∧
        w.tree.root ∈ w'.finalized) (fun _ _ => True) := by
    unfold Plan.walk
    rw [yields_bind]
    refine (Walk.yields_visit hplan steps none (Walk.inOrder_start hlinked) hlinked.root
      Std.HashSet.not_mem_empty).mono ?_ fun _ _ h => h
    rintro _ w' ⟨hw', hpass, hmem⟩
    exact ⟨hw', hpass.kept.root, hmem rfl⟩
  obtain ⟨hs, hroot, hmem⟩ := hyields.of_ok hok
  refine ⟨rfl, fun x hx => ?_, hs.settled⟩
  rw [hs.linked.mem_reached_iff, hroot] at hx
  have hfinal : x ∈ s.finalized := hs.mem_of_beneath hmem hx
  exact ⟨hfinal, List.count_eq_one_of_mem hs.nodup ((hs.started x).mpr hfinal)⟩

theorem Walk.firstOpenChild_of_children {w : Walk ι} (cs : List Handle)
    (h : (w.workspace.tree.get? id).map Node.children = some cs) :
    w.firstOpenChild id = cs.find? fun c => !w.finalized.contains c := by
  unfold Walk.firstOpenChild
  rw [h, Option.bind_some]
  rfl

end General

/-! ## A walk that meets a node it has made -/

/-- A client that places a rule below the root. -/
def oneRule : Action (Workspace Unit) Handle := do
  let rule ← (Edit.create .rule).onWorkspace
  (Edit.append (← Action.get).tree.root (.node rule)).onWorkspace

/-- A plan that puts a declaration after each rule. -/
def following : Plan Unit where
  modules := [[(Plugin.new "follow" none).register .rule .after none fun id => do
    let _ ← (Edit.insertAfter id (.text "a: b;")).onWorkspace]]
  support := none

/-- The walk ends, and the root has the rule and the declaration beneath it. -/
theorem yields_following :
    let w := (oneRule.run ⟨Tree.empty, ()⟩).state
    (following.walk 4 w.tree.root none).Yields (Walk.start w)
      (fun _ w' => w'.workspace.tree.reached = [⟨1, 1⟩, ⟨2, 1⟩, ⟨3, 1⟩]) (fun _ _ => False) := by
  intro w
  have hroot : w.tree.root = ⟨1, 1⟩ := rfl
  unfold Plan.walk
  rw [hroot, yields_bind, Walk.yields_visit_succ, yields_iff_of_ok (a := none) (by decide +kernel),
    if_neg (by decide), Walk.yields_children_succ,
    Walk.firstOpenChild_of_children [⟨2, 1⟩] (by decide +kernel),
    List.find?_cons_of_pos (by simp [Walk.start])]
  -- the rule is finalized, and has the declaration beside it then
  simp only [Walk.yields_visit_succ]
  rw [yields_iff_of_ok (a := none) (by decide +kernel), if_neg (by decide),
    Walk.yields_children_succ, Walk.firstOpenChild_of_children [] (by decide +kernel)]
  simp only [List.find?_nil, Walk.yields_finalize_iff]
  rw [yields_iff_of_ok (a := ()) (by decide +kernel), Walk.yields_children_succ,
    Walk.firstOpenChild_of_children [⟨2, 1⟩, ⟨3, 1⟩] (by decide +kernel),
    List.find?_cons_of_neg (by simp [Walk.start]), List.find?_cons_of_pos (by simp [Walk.start])]
  -- the declaration is finalized
  simp only [Walk.yields_visit_succ]
  rw [yields_iff_of_ok (a := none) (by decide +kernel), if_neg (by decide),
    Walk.yields_children_succ, Walk.firstOpenChild_of_children [] (by decide +kernel)]
  simp only [List.find?_nil, Walk.yields_finalize_iff]
  rw [yields_iff_of_ok (a := ()) (by decide +kernel), Walk.yields_children_succ,
    Walk.firstOpenChild_of_children [⟨2, 1⟩, ⟨3, 1⟩] (by decide +kernel),
    List.find?_cons_of_neg (by simp [Walk.start]), List.find?_cons_of_neg (by simp [Walk.start]),
    List.find?_nil]
  -- and so is the root
  rw [yields_iff_of_ok (a := ()) (by decide +kernel)]
  show Tree.reached _ = _
  decide +kernel

/-- The declaration that is inserted on the way is finalized, once. -/
theorem finalized_once_following :
    let w := (oneRule.run ⟨Tree.empty, ()⟩).state
    let s := ((following.walk 4 w.tree.root none).run (Walk.start w)).state
    ((following.apply 4).run w).result = .ok () ∧ w.tree.contains ⟨3, 1⟩ = false ∧
      ⟨3, 1⟩ ∈ s.finalized ∧ (s.started.map Start.id).count ⟨3, 1⟩ = 1 := by
  have hlocal : following.All Handler.Local :=
    Plan.all_register fun id w => Relation.ReflTransGen.single
      ⟨_, _, .insertAfter "a: b;", congrArg Workspace.tree (state_bind_pure _ _ w)⟩
  have hreachable : (oneRule.run ⟨Tree.empty, ()⟩).state.tree.Reachable :=
    .run (.bind (.edit (.create .rule)) fun rule => .bind .look fun w =>
      .edit (.append w.tree.root (.node rule))) .empty
  have hnew : (oneRule.run ⟨Tree.empty, ()⟩).state.tree.contains ⟨3, 1⟩ = false := by
    decide +kernel
  have hyields := yields_following
  -- from here on it does not matter how the tree was made
  generalize (oneRule.run ⟨Tree.empty, ()⟩).state = w at hreachable hnew hyields ⊢
  intro w s
  obtain ⟨_, hwalk, hreached⟩ := hyields.exists_ok
  have hok := (result_apply following 4 w).trans hwalk
  obtain ⟨-, honce, -⟩ := finalized_once hlocal hreachable hok
  have hmem : ⟨3, 1⟩ ∈ s.workspace.tree.reached := by
    rw [hreached]
    decide
  exact ⟨hok, hnew, honce _ hmem⟩

end StyleTree
