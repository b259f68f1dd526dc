import StyleTree.Proofs.Reachable
import StyleTree.Proofs.Walk.Once
import StyleTree.Proofs.Walk.Calls

/-!
# Why a walk fails

A walk stops at the first handler that fails, with the fault of that handler.  Besides the handlers,
the walk itself reads nodes, and a reading fails if the node is gone.  Handlers can free nodes, but
a child is read right after it was found in the list of its parent, and a list names no node that is
gone; and the dispatch of handlers and the search for open children take a node that is gone as one
without handlers and children.  One reading is left: a document is read again after the handlers for
the earlier phase, and these can free it.

So the last handler call of a walk decides: `Call.fault?` is the fault that a call brings about, and
`applyAt_error_iff` says that a walk fails with a fault exactly if its last call brings it about.  A
walk that used up its steps is no failure in this sense.
-/

namespace StyleTree

open StyleTree.Action StyleTree.Tree

section General

variable [Data] {ι : Type} {plan : Plan ι} {id : Handle}

/-! ## The last call -/

/-- The fault that a handler call brings about: its own, or that of a reading if it frees the
document whose visit begins. -/
def Call.fault? (c : Call) : Option Fault :=
  match c.result with
  | .error e => some e
  | .ok () => if c.phase = .before ∧ c.after.get? c.id = none then some .invalidNode else none

/-- The fault that the last of some calls brings about. -/
def lastFault? (calls : List Call) : Option Fault :=
  calls.getLast?.bind Call.fault?

@[simp] theorem lastFault?_concat (calls : List Call) (c : Call) :
    lastFault? (calls ++ [c]) = c.fault? := by
  rw [lastFault?, List.getLast?_concat, Option.bind_some]

theorem Call.fault?_eq_some_iff {c : Call} {e : Fault} : c.fault? = some e ↔
    c.result = .error e ∨
      c.result = .ok () ∧ c.phase = .before ∧ c.after.get? c.id = none ∧ e = .invalidNode := by
  unfold Call.fault?
  cases h : c.result with
  | error e' => simp
  | ok a =>
    by_cases hfreed : c.phase = .before ∧ c.after.get? c.id = none
    · simp [hfreed, eq_comm]
    · simp only [if_neg hfreed]
      constructor
      · exact fun h => absurd h (by simp)
      · rintro (h | ⟨-, hphase, hgone, -⟩)
        · exact absurd h (by simp)
        · exact absurd ⟨hphase, hgone⟩ hfreed

/-! ## Dispatch -/

/-- A recorded workspace that a walk can go on from: its tree is linked, and no call has brought
about a fault. -/
structure Workspace.Clear (s : Workspace (Recorded ι)) : Prop where
  linked : s.tree.Linked
  fault : lastFault? s.client.calls = none

/-- What a failed walk leaves: the last call has brought about the fault, unless the steps were used
up. -/
def Workspace.Blames (e : Fault) (s : Workspace (Recorded ι)) : Prop :=
  lastFault? s.client.calls = some e ∨ e = .unfinished ∧ lastFault? s.client.calls = none

/-- What a dispatch leaves: a linked tree, and no fault as long as the node is there that the
earlier phase runs on. -/
structure Workspace.Dispatched (phase : Phase) (id : Handle) (s : Workspace (Recorded ι)) :
    Prop where
  linked : s.tree.Linked
  fault : lastFault? s.client.calls =
    if phase = .before ∧ s.tree.get? id = none then some .invalidNode else none

theorem Workspace.Clear.dispatched {s : Workspace (Recorded ι)} (h : s.Clear) {phase : Phase}
    (hid : ∃ n, s.tree.get? id = some n) : s.Dispatched phase id := by
  obtain ⟨n, hn⟩ := hid
  refine ⟨h.linked, ?_⟩
  rw [h.fault, hn, if_neg (by simp)]

/-- A recorded call leaves the fault that it brings about. -/
theorem Handler.yields_dispatched {handler : Handler ι} (h : ∀ id, Client (handler id))
    (plugin : String) (phase : Phase) (around : List Handle) {s : Workspace (Recorded ι)}
    (hs : s.tree.Linked) :
    (handler.recorded plugin phase around id).Yields s (fun _ s' => s'.Dispatched phase id)
      (fun e s' => s'.Blames e) := by
  have hlinked : ((handler id).run s.plain).state.tree.Linked :=
    ((h id).steps (w := s.plain) hs).linked hs
  rw [Handler.yields_recorded]
  unfold Yields
  split
  · refine ⟨hlinked, ?_⟩
    rw [lastFault?_concat]
    rfl
  · refine Or.inl ?_
    rw [lastFault?_concat]
    rfl

theorem yields_runModules_dispatched (hplan : plan.All fun handler => ∀ id, Client (handler id))
    (phase : Phase) (around : List Handle) {s : Workspace (Recorded ι)}
    (hs : s.Dispatched phase id) :
    (runModules (plan.recorded around).support phase id (plan.recorded around).modules).Yields s
      (fun _ s' => s'.Dispatched phase id) (fun e s' => s'.Blames e) :=
  yields_runModules_recorded (fun module hm p hp handler hh plugin _ hs _ =>
    Handler.yields_dispatched (hplan module hm p hp handler hh) plugin phase around hs.linked) hs

/-! ## Walks -/

namespace Walk

variable {w : Walk (Recorded ι)} {around : List Handle}

/-- A node that is there is read, and read again after the earlier phase.  It can be gone then, and
in that case the last call has freed it. -/
theorem yields_arrive_clear (hplan : plan.All fun handler => ∀ id, Client (handler id))
    {s : Workspace (Recorded ι)} (hs : s.Clear) (hid : ∃ n, s.tree.get? id = some n) :
    (arrive (plan.recorded around) id).Yields s
      (fun _ s' => s'.Clear ∧ ∃ n, s'.tree.get? id = some n) (fun e s' => s'.Blames e) := by
  obtain ⟨n, hn⟩ := hid
  refine yields_arrive_iff.mpr ⟨fun m _ => ?_, fun hnone => absurd (hn.symm.trans hnone) (by simp)⟩
  split
  · refine (yields_runModules_dispatched hplan .before around (hs.dispatched ⟨n, hn⟩)).mono ?_
      fun _ _ he => he
    intro _ s' hs'
    constructor
    · intro m' hm'
      refine ⟨⟨hs'.linked, ?_⟩, m', hm'⟩
      rw [hs'.fault, hm', if_neg (by simp)]
    · intro hgone
      refine Or.inl ?_
      rw [hs'.fault, if_pos ⟨rfl, hgone⟩]
  · exact ⟨hs, n, hn⟩

theorem yields_finalize_clear (hplan : plan.All fun handler => ∀ id, Client (handler id))
    (hw : w.workspace.Clear) : (finalize (plan.recorded around) id).Yields w
      (fun _ w' => w'.workspace.Clear) (fun e w' => w'.workspace.Blames e) := by
  have hs : w.workspace.Dispatched .after id := ⟨hw.linked, by rw [hw.fault, if_neg (by simp)]⟩
  rw [yields_finalize_iff]
  refine (yields_runModules_dispatched hplan .after around hs).mono ?_ fun _ _ he => he
  intro _ s' hs'
  exact ⟨hs'.linked, by rw [hs'.fault, if_neg (by simp)]⟩

theorem yields_children_clear {visit : Handle → Action (Walk (Recorded ι)) Unit}
    (hvisit : ∀ c w, w.workspace.Clear → (∃ n, w.workspace.tree.get? c = some n) →
      (visit c).Yields w (fun _ w' => w'.workspace.Clear) (fun e w' => w'.workspace.Blames e))
    (n : Nat) (hw : w.workspace.Clear) :
    (children visit id n).Yields w (fun _ w' => w'.workspace.Clear)
      (fun e w' => w'.workspace.Blames e) := by
  induction n generalizing w with
  | zero => exact Or.inr ⟨rfl, hw.fault⟩
  | succ n ih =>
    rw [yields_children_succ]
    cases hchild : w.firstOpenChild id with
    | none => exact hw
    | some c =>
      have hlists := (lists_of_firstOpenChild_eq_some hchild).1
      have hlive := (hw.linked.hangs_of_lists id c hlists).live
      exact (hvisit c w hw hlive).mono (fun _ w' hw' => ih hw') fun _ _ he => he

/-- From a node that is there, a recorded walk ends without a fault or with the fault that its last
call has brought about. -/
theorem yields_tour_clear (hplan : plan.All fun handler => ∀ id, Client (handler id)) (n : Nat)
    (context : Option String) (hw : w.workspace.Clear)
    (hid : ∃ n, w.workspace.tree.get? id = some n) :
    (tour plan.recorded around n context id).Yields w (fun _ w' => w'.workspace.Clear)
      (fun e w' => w'.workspace.Blames e) := by
  induction n generalizing around context id w with
  | zero => exact Or.inr ⟨rfl, hw.fault⟩
  | succ n ih =>
    rw [yields_tour_succ]
    refine (yields_arrive_clear hplan hw hid).mono ?_ fun _ _ he => he
    intro own s hs
    obtain ⟨hclear, m, hm⟩ := hs
    split
    · refine Edit.yields_remove.mono ?_ ?_
      · intro _ t ht
        obtain ⟨-, -, rfl⟩ := ht
        exact ⟨hclear.linked.prune hm, hclear.fault⟩
      · intro _ t ht
        exact absurd (hm.symm.trans ht.1) (by simp)
    · refine (yields_children_clear (fun c w hw hc => ih _ hw hc) n hclear).mono ?_ fun _ _ he => he
      exact fun _ w' hw' => yields_finalize_clear hplan hw'

end Walk

/-- A walk from a node that is there, with handlers that are clients, fails with a fault exactly if
the last handler call has failed with it, or else has freed the document that it was called for
before its visit, and then with the fault of a handle without a node. -/
theorem applyAt_error_iff (hplan : plan.All fun handler => ∀ id, Client (handler id))
    {w : Workspace ι} (hw : w.tree.Reachable) (hid : ∃ n, w.tree.get? id = some n) (steps : Nat)
    (context : Option String) {e : Fault} (he : e ≠ .unfinished) :
    ((plan.applyAt steps id context).run w).result = .error e ↔
      ∃ c, (plan.calls steps id context w).getLast? = some c ∧ (c.result = .error e ∨
        c.result = .ok () ∧ c.phase = .before ∧ c.after.get? c.id = none ∧ e = .invalidNode) := by
  have hclear : (Walk.start w.unrecorded).workspace.Clear := ⟨hw.linked, rfl⟩
  have hyields :
      (Walk.tour plan.recorded [] steps context id).Yields (Walk.start w.unrecorded) _ _ :=
    Walk.yields_tour_clear hplan steps context hclear hid
  have hresult : ((plan.applyAt steps id context).run w).result =
      (plan.recording steps id context w).result :=
    (plan.over_recorded steps id context w).1.symm
  have hlast : lastFault? (plan.calls steps id context w) = some e ↔
      ∃ c, (plan.calls steps id context w).getLast? = some c ∧ c.fault? = some e :=
    Option.bind_eq_some_iff
  simp only [← Call.fault?_eq_some_iff]
  rw [← hlast, hresult]
  unfold Yields at hyields
  unfold Plan.calls Plan.recording
  split at hyields
  · next a hok =>
    rw [hok, hyields.fault]
    constructor <;> exact fun h => absurd h (by simp)
  · next e' herror =>
    rw [herror]
    rcases hyields with hblame | ⟨rfl, hnone⟩
    · rw [hblame]
      simp
    · rw [hnone]
      constructor
      · exact fun h => absurd (Except.error.inj h).symm he
      · exact fun h => absurd h (by simp)

end General

/-- A plan that frees all orphans after each rule, and then touches the rule again. -/
def tidying : Plan Unit where
  modules := [[(Plugin.new "tidy" none).register .rule .after none fun id => do
    let _ ← Edit.compact.onWorkspace
    let _ ← (Edit.setValue id "a").onWorkspace]]
  support := none

/-- Applied to an orphan the plan frees it, fails when it touches it, and is to blame. -/
theorem applyAt_error_iff_tidying :
    let w := ((Edit.create .rule).onWorkspace.run (⟨Tree.empty, ()⟩ : Workspace Unit)).state
    ((tidying.applyAt 2 ⟨2, 1⟩ none).run w).result = .error .invalidNode ∧
      ∃ c, (tidying.calls 2 ⟨2, 1⟩ none w).getLast? = some c ∧ (c.result = .error .invalidNode ∨
        c.result = .ok () ∧ c.phase = .before ∧ c.after.get? c.id = none ∧
          Fault.invalidNode = .invalidNode) := by
  intro w
  have hplan : tidying.All fun handler => ∀ id, Client (handler id) :=
    Plan.all_register fun id => .bind (.edit .compact) fun _ =>
      .bind (.edit (.setValue id "a")) fun _ => .pure ()
  have hreachable : w.tree.Reachable := .run (.edit (.create .rule)) .empty
  have hlive : ∃ n, w.tree.get? ⟨2, 1⟩ = some n := ⟨Node.fresh .rule, rfl⟩
  have herror : ((tidying.applyAt 2 ⟨2, 1⟩ none).run w).result = .error .invalidNode := by
    decide +kernel
  exact ⟨herror, (applyAt_error_iff hplan hreachable hlive 2 none (by decide)).mp herror⟩

/-- A plan that frees all orphans before a document is visited. -/
def sweeping : Plan Unit where
  modules := [[(Plugin.new "sweep" none).register .root .before none fun _ => do
    let _ ← Edit.compact.onWorkspace]]
  support := none

/-- Not every failure is the failure of a handler: applied to a document that is an orphan, the plan
fails although its one handler call succeeds. -/
theorem applyAt_sweeping :
    let w := ((Edit.create .root).onWorkspace.run (⟨Tree.empty, ()⟩ : Workspace Unit)).state
    (sweeping.All fun handler => ∀ id, Client (handler id)) ∧ w.tree.Reachable ∧
      w.tree.contains ⟨2, 1⟩ = true ∧
      ((sweeping.applyAt 2 ⟨2, 1⟩ none).run w).result = .error .invalidNode ∧
      (sweeping.calls 2 ⟨2, 1⟩ none w).map Call.result = [.ok ()] := by
  intro w
  refine ⟨?_, .run (.edit (.create .root)) .empty, ?_, ?_, ?_⟩
  · exact Plan.all_register fun id => .bind (.edit .compact) fun _ => .pure ()
  · decide +kernel
  · decide +kernel
  · decide +kernel

end StyleTree
