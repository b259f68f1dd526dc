import StyleTree.Proofs.Walk.Calls

/-!
# Walks that can be evaluated

A walk keeps the finalized nodes in a hash set.  A hash set is fast and cannot be evaluated in a
proof, as the place of an element depends on the word size of the machine.  A walk with a ledger is
the same walk with its marks in a list.  It asks the same question of the list, whether a node is in
it, so the two go the same way from node to node, and what a walk on a given tree comes to can be
read off the ledger.
-/

namespace StyleTree

open StyleTree.Action

instance : Marks (List Handle) where
  none := []
  has := List.contains
  add l id := id :: l

/-- A hash set and a list with the same handles. -/
def Marks.SameHandles (s : Std.HashSet Handle) (l : List Handle) : Prop :=
  ∀ x, s.contains x = l.contains x

theorem Marks.parallel_sameHandles : Marks.Parallel Marks.SameHandles where
  has _ _ h := h
  add s l id h x := by
    show (s.insert id).contains x = (id :: l).contains x
    rw [Std.HashSet.contains_insert, List.contains_cons, h, BEq.comm]

variable [Data] {ι : Type}

/-- A walk with a ledger that has not begun. -/
def Walk.startLedger (w : Workspace ι) : Walk ι (List Handle) := ⟨w, [], Marks.none⟩

/-- A tour and the same tour with a ledger go the same way. -/
theorem Walk.over_ledger (plans : List Handle → Plan ι) (steps : Nat) (context : Option String)
    (id : Handle) (w : Workspace ι) :
    Walk.Over Eq Marks.SameHandles
      ((Walk.tour plans [] steps context id).run (Walk.start w)).state
      ((Walk.tour plans [] steps context id).run (Walk.startLedger w)).state := by
  have hmatch : Matches (Walk.Over Eq Marks.SameHandles) Event.any _ _ :=
    Walk.matches_tour Workspace.parallel_eq Marks.parallel_sameHandles (P := plans) (Q := plans)
      (fun _ _ _ => Matches.refl _) [] steps context id
  exact (hmatch _ _ ⟨rfl, rfl, fun _ => Std.HashSet.contains_empty⟩).state

/-- The handler calls of a walk, read off its ledger. -/
theorem Plan.calls_eq_ledger (plan : Plan ι) (steps : Nat) (id : Handle) (context : Option String)
    (w : Workspace ι) : plan.calls steps id context w =
      ((Walk.tour plan.recorded [] steps context id).run
        (Walk.startLedger w.unrecorded)).state.workspace.client.calls := by
  have hover := Walk.over_ledger plan.recorded steps context id w.unrecorded
  exact congrArg (fun s => s.client.calls) hover.workspace

/-- The starts of the later phase in a walk, read off its ledger. -/
theorem Plan.started_eq_ledger (plan : Plan ι) (steps : Nat) (id : Handle) (context : Option String)
    (w : Workspace ι) : ((plan.walk steps id context).run (Walk.start w)).state.started =
      ((Walk.visit plan steps context id).run (Walk.startLedger w)).state.started := by
  have hover := Walk.over_ledger (fun _ => plan) steps context id w
  rw [Walk.tour_const, Walk.tour_const] at hover
  rw [(plan.run_walk steps id context (Walk.start w)).2]
  exact hover.started

end StyleTree
