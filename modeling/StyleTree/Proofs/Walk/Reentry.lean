import StyleTree.Proofs.Reachable
import StyleTree.Proofs.Tree.Cut
import StyleTree.Proofs.Walk.Once
import StyleTree.Proofs.Walk.Ledger

/-!
# Walks that come back to a node they are inside of

A walk remembers the nodes that it has finalized, and never visits one of them again.  It does not
remember the nodes that it is inside of.  As long as handlers leave these where they are, each lies
beneath the next outer one, and a walk that goes down cannot meet one of them.  But handlers may
move any node, and once an outer node lies beneath an inner one the walk can come to it again and
finalize it twice (`started_inverting`).

This is the only way: `nodup_started_of_orderly` says that the later phase starts at most once on
each node if no handler call leaves a node that the walk is inside of beneath a node that it entered
later.  What handlers do to all other nodes, and how the walk ends, is of no importance.

The hypothesis is about the calls of the whole walk, so everything is shown under the condition that
the calls so far are orderly, and each statement hands back the condition for the state that it
began with.
-/

namespace StyleTree

open StyleTree.Action StyleTree.Tree

section General

variable [Data] {ι : Type} {plan : Plan ι} {id : Handle}

/-! ## Orderly calls -/

/-- In a list of nodes, the later entered first, none lies beneath one that was entered later. -/
def Tree.Apart (t : Tree) (path : List Handle) : Prop :=
  path.Pairwise fun inner outer => t.isAbove inner outer = false

/-- The nodes that a walk is inside of during a call, and that it will look at again.  In the later
phase this is no longer the node of the call itself. -/
def inside (phase : Phase) (id : Handle) (around : List Handle) : List Handle :=
  match phase with
  | .before => id :: around
  | .after => around

/-- A call leaves none of the nodes that the walk is inside of beneath one that was entered
later. -/
def Call.Orderly (c : Call) : Prop :=
  c.after.Apart (inside c.phase c.id c.around)

instance : DecidablePred Call.Orderly := fun c =>
  inferInstanceAs (Decidable (List.Pairwise (fun x y => c.after.isAbove x y = false) _))

/-- All calls so far are orderly. -/
def Workspace.Orderly (s : Workspace (Recorded ι)) : Prop :=
  ∀ c ∈ s.client.calls, c.Orderly

/-- One node is above another if it is a node and the other lies beneath it. -/
theorem Tree.Linked.isAbove_eq_true_iff {t : Tree} {x y : Handle} (ht : t.Linked) :
    t.isAbove x y = true ↔ (∃ n, t.get? x = some n) ∧ t.Beneath y x := by
  constructor
  · intro h
    obtain ⟨⟨z, n⟩, hmem, rfl⟩ := List.mem_map.mp (List.contains_iff_mem.mp h)
    obtain ⟨hbeneath, hlive⟩ := ht.mem_lineage_iff.mp hmem
    exact ⟨⟨n, hlive⟩, hbeneath⟩
  · intro h
    obtain ⟨⟨n, hn⟩, hbeneath⟩ := h
    exact (ht.isAbove_iff hn).mpr hbeneath

/-- A node that hangs from the innermost node of the path can be entered: no node of the path lies
beneath it. -/
theorem Tree.Apart.not_isAbove {t : Tree} {c x : Handle} {path : List Handle} (ht : t.Linked)
    (h : t.Apart (id :: path)) (hc : t.Lists id c) (hx : x ∈ id :: path) :
    t.isAbove c x = false := by
  rw [← Bool.not_eq_true, ht.isAbove_eq_true_iff]
  intro hxc
  have hhangs := ht.hangs_of_lists id c hc
  rcases List.mem_cons.mp hx with rfl | hx
  · exact ht.not_beneath_of_hangs hhangs hxc.2
  · have habove : t.isAbove id x = true :=
      ht.isAbove_eq_true_iff.mpr ⟨hc.live, hxc.2.trans (Beneath.of_hangs hhangs)⟩
    rw [(List.pairwise_cons.mp h).1 x hx] at habove
    exact absurd habove (by simp)

/-- Pruning only takes ways up away. -/
theorem Tree.Apart.prune {t : Tree} {n : Node} {path : List Handle} (ht : t.Linked)
    (hid : t.get? id = some n) (h : t.Apart path) : (t.prune id).Apart path := by
  refine h.imp fun {x y} hxy => ?_
  rw [← Bool.not_eq_true, (ht.prune hid).isAbove_eq_true_iff]
  intro habove
  obtain ⟨⟨m, hm⟩, hbeneath⟩ := habove
  have hlive : ∃ m, t.get? x = some m := by
    rw [get?_prune ht hid] at hm
    obtain ⟨m', hm', -⟩ := Option.map_eq_some_iff.mp hm
    exact ⟨m', hm'⟩
  have hold : t.Beneath y x :=
    Relation.ReflTransGen.mono (fun _ _ hh => ((hangs_prune ht hid).mp hh).1) _ _ hbeneath
  rw [ht.isAbove_eq_true_iff.mpr ⟨hlive, hold⟩] at hxy
  exact absurd hxy (by simp)

/-! ## Dispatch -/

/-- From an orderly workspace with a linked tree and the path apart, a dispatch leads to another
one, if its calls are orderly. -/
theorem yields_runModules_orderly (hplan : plan.All fun handler => ∀ id, Client (handler id))
    (phase : Phase) (around : List Handle) {s : Workspace (Recorded ι)}
    (hs : s.Orderly → s.tree.Linked ∧ s.tree.Apart (inside phase id around)) :
    (runModules (plan.recorded around).support phase id (plan.recorded around).modules).Yields s
      (fun _ s' => s'.Orderly →
        s.Orderly ∧ s'.tree.Linked ∧ s'.tree.Apart (inside phase id around))
      (fun _ s' => s'.Orderly → s.Orderly) := by
  refine (yields_runModules_recorded (I := fun s' => s'.Orderly →
      s.Orderly ∧ s'.tree.Linked ∧ s'.tree.Apart (inside phase id around))
    (E := fun _ s' => s'.Orderly → s.Orderly) ?_ fun h => ⟨h, hs h⟩)
  intro module hm p hp handler hh plugin s' hs' _
  have hsteps := fun hlinked => (hplan module hm p hp handler hh id).steps (w := s'.plain) hlinked
  rw [Handler.yields_recorded]
  unfold Yields
  split
  · intro hcalls
    have hold : s'.Orderly := fun c hc => hcalls c (List.mem_append_left _ hc)
    obtain ⟨hstart, hlinked, -⟩ := hs' hold
    exact ⟨hstart, (hsteps hlinked).linked hlinked, hcalls _ List.mem_concat_self⟩
  · intro hcalls
    exact (hs' fun c hc => hcalls c (List.mem_append_left _ hc)).1

/-! ## Walks -/

namespace Walk

/-- How a walk stands that is inside of the nodes of a path: it is inside of each once, none of
these is finalized, and the later phase has started only on nodes that are finalized, and once on
each. -/
structure Entered (path : List Handle) (w : Walk ι) : Prop where
  distinct : path.Nodup
  linked : w.workspace.tree.Linked
  apart : w.workspace.tree.Apart path
  unmarked : ∀ x ∈ path, x ∉ w.finalized
  marked : ∀ x ∈ w.started.map Start.id, x ∈ w.finalized
  nodup : (w.started.map Start.id).Nodup

/-- The walk enters an open child: no node of the path lies beneath the child, and so the child is
not one of them. -/
theorem Entered.enter {w : Walk ι} {c : Handle} {path : List Handle} (hw : w.Entered (id :: path))
    (hchild : w.firstOpenChild id = some c) : w.Entered (c :: id :: path) := by
  obtain ⟨hlists, hopen⟩ := lists_of_firstOpenChild_eq_some hchild
  have hbelow := fun x hx => hw.apart.not_isAbove hw.linked hlists (x := x) hx
  have hlive := (hw.linked.hangs_of_lists id c hlists).live
  have hself := hw.linked.isAbove_eq_true_iff.mpr ⟨hlive, Beneath.refl _ c⟩
  have hnew : c ∉ id :: path := by
    intro hmem
    rw [hbelow c hmem] at hself
    exact absurd hself (by simp)
  exact ⟨List.nodup_cons.mpr ⟨hnew, hw.distinct⟩, hw.linked,
    List.pairwise_cons.mpr ⟨hbelow, hw.apart⟩,
    List.forall_mem_cons.mpr ⟨hopen, hw.unmarked⟩, hw.marked, hw.nodup⟩

/-- What is left of a walk that fails. -/
def Single (w : Walk (Recorded ι)) : Prop :=
  w.workspace.Orderly → (w.started.map Start.id).Nodup

variable {w : Walk (Recorded ι)} {around : List Handle}

theorem yields_arrive_orderly (hplan : plan.All fun handler => ∀ id, Client (handler id))
    {s : Workspace (Recorded ι)}
    (hs : s.Orderly → s.tree.Linked ∧ s.tree.Apart (id :: around)) :
    (arrive (plan.recorded around) id).Yields s
      (fun _ s' => s'.Orderly → s.Orderly ∧ s'.tree.Linked ∧ s'.tree.Apart (id :: around))
      (fun _ s' => s'.Orderly → s.Orderly) := by
  refine yields_arrive_iff.mpr ⟨fun n _ => ?_, fun _ => fun h => h⟩
  split
  · refine (yields_runModules_orderly hplan .before around hs).mono ?_ fun _ _ he => he
    exact fun _ s' hs' => ⟨fun _ _ => hs', fun _ h => (hs' h).1⟩
  · exact fun h => ⟨h, hs h⟩

/-- A node that is not finalized is finalized, and then the walk is no longer inside of it. -/
theorem yields_finalize_orderly (hplan : plan.All fun handler => ∀ id, Client (handler id))
    (hw : w.workspace.Orderly → w.Entered (id :: around)) :
    (finalize (plan.recorded around) id).Yields w
      (fun _ w' => w'.workspace.Orderly → w.workspace.Orderly ∧ w'.Entered around)
      (fun _ w' => w'.Single) := by
  -- the start on the node is the first one, as all earlier starts are on finalized nodes
  have hstart : w.workspace.Orderly → (id :: w.started.map Start.id).Nodup := by
    intro h
    have hentered := hw h
    refine List.nodup_cons.mpr ⟨fun hmem => ?_, hentered.nodup⟩
    exact hentered.unmarked id (List.mem_cons_self ..) (hentered.marked id hmem)
  rw [yields_finalize_iff]
  have hs : w.workspace.Orderly →
      w.workspace.tree.Linked ∧ w.workspace.tree.Apart (inside .after id around) :=
    fun h => ⟨(hw h).linked, (List.pairwise_cons.mp (hw h).apart).2⟩
  refine (yields_runModules_orderly hplan .after around hs).mono ?_ ?_
  · intro _ s hs' h
    obtain ⟨hold, hlinked, hapart⟩ := hs' h
    have hentered := hw hold
    refine ⟨hold, (List.nodup_cons.mp hentered.distinct).2, hlinked, hapart, ?_, ?_, hstart hold⟩
    · intro x hx hmem
      rcases Std.HashSet.mem_insert.mp hmem with he | hmem
      · obtain rfl := eq_of_beq he
        exact (List.nodup_cons.mp hentered.distinct).1 hx
      · exact hentered.unmarked x (List.mem_cons_of_mem _ hx) hmem
    · intro x hx
      rw [Std.HashSet.mem_insert]
      rcases List.mem_cons.mp hx with rfl | hx
      · exact Or.inl (beq_self_eq_true _)
      · exact Or.inr (hentered.marked x hx)
  · exact fun _ s hs' h => hstart (hs' h)

theorem yields_children_orderly {visit : Handle → Action (Walk (Recorded ι)) Unit}
    (hvisit : ∀ c w, (w.workspace.Orderly → w.Entered (c :: id :: around)) → (visit c).Yields w
      (fun _ w' => w'.workspace.Orderly → w.workspace.Orderly ∧ w'.Entered (id :: around))
      (fun _ w' => w'.Single))
    (n : Nat) (hw : w.workspace.Orderly → w.Entered (id :: around)) :
    (children visit id n).Yields w
      (fun _ w' => w'.workspace.Orderly → w.workspace.Orderly ∧ w'.Entered (id :: around))
      (fun _ w' => w'.Single) := by
  induction n generalizing w with
  | zero => exact fun h => (hw h).nodup
  | succ n ih =>
    rw [yields_children_succ]
    cases hchild : w.firstOpenChild id with
    | none => exact fun h => ⟨h, hw h⟩
    | some c =>
      refine (hvisit c w fun h => (hw h).enter hchild).mono ?_ fun _ _ he => he
      intro _ w' hw'
      refine (ih fun h => (hw' h).2).mono ?_ fun _ _ he => he
      intro _ w'' hw'' h
      obtain ⟨h', hentered⟩ := hw'' h
      exact ⟨(hw' h').1, hentered⟩

/-- A walk that enters a node leaves it again. -/
theorem yields_tour_orderly (hplan : plan.All fun handler => ∀ id, Client (handler id)) (n : Nat)
    (context : Option String) (hw : w.workspace.Orderly → w.Entered (id :: around)) :
    (tour plan.recorded around n context id).Yields w
      (fun _ w' => w'.workspace.Orderly → w.workspace.Orderly ∧ w'.Entered around)
      (fun _ w' => w'.Single) := by
  induction n generalizing around context id w with
  | zero => exact fun h => (hw h).nodup
  | succ n ih =>
    rw [yields_tour_succ]
    refine (yields_arrive_orderly hplan fun h => ⟨(hw h).linked, (hw h).apart⟩).mono ?_ ?_
    · intro own s hs
      have hentered : s.Orderly → Entered (id :: around) { w with workspace := s } := by
        intro h
        obtain ⟨hold, hlinked, hapart⟩ := hs h
        exact { hw hold with linked := hlinked, apart := hapart }
      split
      · refine Edit.yields_remove.mono ?_ ?_
        · intro _ t ht h
          obtain ⟨-, ⟨m, hm⟩, rfl⟩ := ht
          obtain ⟨hdistinct, hlinked, hapart, hunmarked, hmarked, hnodup⟩ := hentered h
          have htail : s.tree.Apart around := (List.pairwise_cons.mp hapart).2
          exact ⟨(hs h).1, (List.nodup_cons.mp hdistinct).2, hlinked.prune hm,
            htail.prune hlinked hm, (List.forall_mem_cons.mp hunmarked).2, hmarked, hnodup⟩
        · intro _ t ht h
          exact (hentered h).nodup
      · refine (yields_children_orderly (fun c w hc => ih _ hc) n hentered).mono ?_ fun _ _ he => he
        intro _ w' hw'
        refine (yields_finalize_orderly hplan fun h => (hw' h).2).mono ?_ fun _ _ he => he
        intro _ w'' hw'' h
        obtain ⟨h', hentered'⟩ := hw'' h
        exact ⟨(hs (hw' h').1).1, hentered'⟩
    · exact fun _ s hs h => (hw (hs h)).nodup

theorem entered_start {s : Workspace ι} (hs : s.tree.Linked) (id : Handle) :
    (start s).Entered [id] where
  distinct := List.nodup_singleton id
  linked := hs
  apart := List.pairwise_singleton ..
  unmarked := fun _ _ => Std.HashSet.not_mem_empty
  marked := fun _ hx => absurd hx List.not_mem_nil
  nodup := List.nodup_nil

end Walk

/-- If no handler call leaves a node that the walk is inside of beneath one that it entered later,
the later phase starts at most once on each node, however the walk ends. -/
theorem nodup_started_of_orderly (hplan : plan.All fun handler => ∀ id, Client (handler id))
    {w : Workspace ι} (hw : w.tree.Reachable) (steps : Nat) (context : Option String)
    (h : ∀ c ∈ plan.calls steps id context w, c.Orderly) :
    (((plan.walk steps id context).run (Walk.start w)).state.started.map Start.id).Nodup := by
  have hentered := Walk.entered_start (s := w.unrecorded) hw.linked id
  have hyields := Walk.yields_tour_orderly hplan steps context fun _ => hentered
  have hsingle : (plan.recording steps id context w).state.Single :=
    (yields_state_iff ..).mp (hyields.mono (fun _ w' hw' h => (hw' h).2.nodup) fun _ _ he => he)
  obtain ⟨-, hover⟩ := plan.over_recorded steps id context w
  rw [← hover.started]
  exact hsingle h

end General

/-- A client that places a rule below the root, another one in it, and a declaration in that one. -/
def nestedRules : Action (Workspace Unit) Handle := do
  let outer ← (Edit.create .rule).onWorkspace
  let inner ← (Edit.create .rule).onWorkspace
  let leaf ← (Edit.create .declaration).onWorkspace
  let _ ← (Edit.append (← Action.get).tree.root (.node outer)).onWorkspace
  let _ ← (Edit.append outer (.node inner)).onWorkspace
  (Edit.append inner (.node leaf)).onWorkspace

theorem reachable_nestedRules : (nestedRules.run ⟨Tree.empty, ()⟩).state.tree.Reachable := by
  refine .run ?_ .empty
  refine .bind (.edit (.create .rule)) fun outer => .bind (.edit (.create .rule)) fun inner =>
    .bind (.edit (.create .declaration)) fun leaf => .bind .look fun w => ?_
  exact .bind (.edit (.append _ _)) fun _ => .bind (.edit (.append _ _)) fun _ =>
    .edit (.append _ _)

/-- The rule that a node is in, or else the root. -/
def Tree.around (t : Tree) (id : Handle) : Handle :=
  ((t.get? id).bind Node.parent).getD t.root

/-- A plan that moves each declaration, and before it the rule around it, to the end of the root. -/
def lifting : Plan Unit where
  modules := [[(Plugin.new "lift" none).register .declaration .after none fun id => do
    let t := (← Action.get).tree
    let _ ← (Edit.append t.root (.node (t.around id))).onWorkspace
    let _ ← (Edit.append t.root (.node id)).onWorkspace]]
  support := none

/-- The inner rule is moved while the walk is inside of it, but the outer one does not come to lie
beneath it. -/
theorem nodup_started_of_orderly_lifting :
    let w := (nestedRules.run ⟨Tree.empty, ()⟩).state
    (∀ c ∈ lifting.calls 6 w.tree.root none w, c.Orderly) ∧
      (((lifting.walk 6 w.tree.root none).run (Walk.start w)).state.started.map
        Start.id).Nodup := by
  intro w
  have hplan : lifting.All fun handler => ∀ id, Client (handler id) :=
    Plan.all_register fun id => .bind .look fun w => .bind (.edit (.append _ _)) fun _ =>
      .bind (.edit (.append _ _)) fun _ => .pure ()
  have horderly : ∀ c ∈ lifting.calls 6 w.tree.root none w, c.Orderly := by
    rw [Plan.calls_eq_ledger]
    decide +kernel
  have hreachable : w.tree.Reachable := reachable_nestedRules
  -- from here on it does not matter how the tree was made
  clear_value w
  exact ⟨horderly, nodup_started_of_orderly hplan hreachable 6 none horderly⟩

/-- A plan that, at each declaration, moves the rule around it to the root and what was around the
rule into it. -/
def inverting : Plan Unit where
  modules := [[(Plugin.new "invert" none).register .declaration .after none fun id => do
    let t := (← Action.get).tree
    let inner := t.around id
    let _ ← (Edit.append t.root (.node inner)).onWorkspace
    let _ ← (Edit.append inner (.node (t.around inner))).onWorkspace]]
  support := none

/-- Not every plan starts the later phase at most once on each node: the walk comes to the outer
rule again from the inner one, and the later phase starts on it twice. -/
theorem started_inverting :
    let w := (nestedRules.run ⟨Tree.empty, ()⟩).state
    (inverting.All fun handler => ∀ id, Client (handler id)) ∧ w.tree.Reachable ∧
      (((inverting.walk 6 w.tree.root none).run (Walk.start w)).state.started.map Start.id).count
        ⟨2, 1⟩ = 2 := by
  intro w
  refine ⟨?_, reachable_nestedRules, ?_⟩
  · exact Plan.all_register fun id => .bind .look fun w => .bind (.edit (.append _ _)) fun _ =>
      .bind (.edit (.append _ _)) fun _ => .pure ()
  · rw [Plan.started_eq_ledger]
    decide +kernel

end StyleTree
