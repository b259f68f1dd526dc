import StyleTree.Proofs.Edit.Place
import StyleTree.Proofs.Tree.Reach
import StyleTree.Proofs.Tree.Sprout

/-!
# A copy beside its original

A node is copied by growing nodes from its own text, and the copy is then placed beside it.  Between
the text and the place lie printing, reading and the slots that happen to be vacant, but none of
this can reach a node that was there before: growing only adds nodes, and placing concerns the copy
and the parent alone.

* `Blank t t'`: what is new in `t'` has no second name and no data.  Every change on the way keeps
  that.
* `Grown.placed`: a new branch that is placed beside a node, on either side.
* `Joins t p id c after t'`: the outcome, as far as it is the same for all copies.
* `copyBeside_effect`: copying before, copying after and copying with a prefix have that outcome,
  and change no node that was there if they place nothing.
-/

namespace StyleTree

namespace Tree

open Relation

variable [Data] {t t' u : Tree} {id p c x : Handle} {n np : Node} {b : Branch} {spec : Spec}
  {left right : List Handle} {after : Bool}

/-! ## New nodes are blank -/

/-- The nodes that the second tree has and the first one has not carry no second name and no
data. -/
def Blank (t t' : Tree) : Prop :=
  ∀ x m, t.get? x = none → t'.get? x = some m → m.family = none ∧ m.data = ∅

theorem Blank.refl (t : Tree) : Blank t t := by
  intro x m hdead hm
  rw [hdead] at hm
  exact absurd hm (by simp)

/-- A change of each node on its own that leaves second names and data alone. -/
theorem Blank.of_map (h : Blank t u) {g : Handle → Node → Node}
    (hget : ∀ k, t'.get? k = (u.get? k).map (g k))
    (hg : ∀ k m, (g k m).family = m.family ∧ (g k m).data = m.data) : Blank t t' := by
  intro x m hdead hm
  rw [hget] at hm
  obtain ⟨m', hm', rfl⟩ := Option.map_eq_some_iff.mp hm
  rw [(hg x m').1, (hg x m').2]
  exact h x m' hdead hm'

theorem Blank.update (h : Blank t u) (id : Handle) {f : Node → Node}
    (hf : ∀ m, (f m).family = m.family ∧ (f m).data = m.data) : Blank t (u.update id f) := by
  refine h.of_map (get?_change u id f) fun k m => ?_
  split
  · exact hf m
  · exact ⟨rfl, rfl⟩

theorem Blank.insert (hs : u.arena.Sound) (h : Blank t u) {node : Node}
    (hfamily : node.family = none) (hdata : node.data = ∅) : Blank t (u.insert node) := by
  intro x m hdead hm
  rw [get?_insert hs] at hm
  split at hm
  · cases hm
    exact ⟨hfamily, hdata⟩
  · exact h x m hdead hm

theorem Blank.link (h : Blank t u) (p c : Handle) (position : Option Nat) :
    Blank t (u.link p c position) := by
  have hchild := h.update c (f := fun n => { n with parent := some p }) fun _ => ⟨rfl, rfl⟩
  exact hchild.update p fun _ => ⟨rfl, rfl⟩

mutual

/-- Growing a description adds blank nodes only. -/
theorem Blank.grow {t u : Tree} (hu : u.Linked) (h : Blank t u) (spec : Spec) :
    Blank t (u.grow spec) := by
  obtain ⟨kind, name, value, block, children⟩ := spec
  have hnew : Blank t (u.insert (Node.ofSpec ⟨kind, name, value, block, []⟩)) :=
    h.insert hu.sound rfl rfl
  have hget := get?_insert hu.sound (Node.ofSpec ⟨kind, name, value, block, []⟩) u.next
  rw [if_pos rfl] at hget
  rw [Tree.grow]
  exact hnew.growAll (hu.insert rfl rfl) hget children

theorem Blank.growAll {t u : Tree} {p : Handle} {n : Node} (h : Blank t u) (hu : u.Linked)
    (hp : u.get? p = some n) (specs : List Spec) : Blank t (u.growAll p specs) := by
  match specs with
  | [] =>
    rw [Tree.growAll]
    exact h
  | spec :: rest =>
    obtain ⟨b, hb⟩ := hu.grow spec
    have hone := hb.link hu hp
    rw [hb.id_eq] at hone
    rw [Tree.growAll]
    exact ((Blank.grow hu h spec).link p u.next none).growAll (hone.steps.linked hu)
      hone.parent_eq rest

end

theorem Blank.placed {index : Option Nat} (hu : u.Linked) (h : Blank t u)
    (hplaced : Edit.Placed u p c index after t') : Blank t t' :=
  h.of_map (hplaced.get? hu) fun _ _ => ⟨rfl, rfl⟩

/-! ## A new branch placed beside a node -/

omit [Data] in
/-- A node that the list does not hold goes right beside the entry, on either side. -/
theorem insertIdx_position_beside (hnew : c ∉ left ++ id :: right) (after : Bool) :
    let rest := (left ++ id :: right).erase c
    rest.insertIdx (Edit.position rest.length (some left.length) after) c =
      left ++ (if after then [id, c] else [c, id]) ++ right := by
  intro rest
  have hne : c ≠ id := by
    rintro rfl
    exact hnew (by simp)
  have hleft : c ∉ left := fun hmem => hnew (List.mem_append_left _ hmem)
  have hright : right.erase c = right := List.erase_of_not_mem fun hmem => hnew (by simp [hmem])
  cases after with
  | false => simp [rest, Edit.insertIdx_position_before hne, hleft, hright]
  | true => simp [rest, Edit.insertIdx_position_after hne, hleft, hright]

/-- A new branch placed beside an old node stands next to it, and nobody but the parent notices. -/
theorem Grown.placed (ht : t.Linked) (hp : t.get? p = some np)
    (hlist : np.children = left ++ id :: right) (h : Grown t u spec b)
    (hplaced : Edit.Placed u p b.id (some left.length) after t') :
    t'.Shows (b.withParent (some p)) ∧
      t'.get? p =
        some { np with children := left ++ (if after then [id, b.id] else [b.id, id]) ++ right } ∧
      ∀ k n, t.get? k = some n → k ≠ p → t'.get? k = some n := by
  have hu := h.steps.linked ht
  have hp' := h.frame p np hp
  have hold : ∀ k n, t.get? k = some n → k ∉ b.handles := by
    intro k n hk hmem
    rw [h.fresh k hmem] at hk
    exact absurd hk (by simp)
  have hnew : b.id ∉ left ++ id :: right := by
    rw [← hlist]
    exact fun hmem => h.not_hangs p (hu.hangs_of_lists p b.id ⟨np, hp', hmem⟩)
  refine ⟨?_, ?_, ?_⟩
  · refine h.shows.withParent (hplaced.get?_child hu h.shows.get?)
      ?_ (h.shows.id_notMem_children hu)
    intro x hx hxid
    have hxp : x ≠ p := fun he => hold p np hp (he ▸ hx)
    exact hplaced.get?_of_not_hangs hu hxp hxid (h.not_hangs x)
  · rw [hplaced.get?_parent hu hp', hlist, insertIdx_position_beside hnew]
  · intro k n hk hkp
    have hkb : k ≠ b.id := fun he => hold k n hk (he ▸ Branch.id_mem_handles b)
    rw [hplaced.get?_of_not_hangs hu hkp hkb (h.not_hangs k), h.frame k n hk]

/-! ## The outcome -/

/-- The node `c` has been made and placed beside `id` among the children of `p`, after it or before
it.  All that child links reach from `c` is new and blank; the parent has one more child; every
other old node is as it was. -/
structure Joins (t : Tree) (p id c : Handle) (after : Bool) (t' : Tree) : Prop where
  fresh : ∀ x, t'.Reaches c x → t.get? x = none
  blank : ∀ x, t'.Reaches c x → ∃ m, t'.get? x = some m ∧ m.family = none ∧ m.data = ∅
  beside : ∃ np left right, t.get? p = some np ∧ np.children = left ++ id :: right ∧
    t'.get? p = some { np with children := left ++ (if after then [id, c] else [c, id]) ++ right }
  frame : ∀ k n, t.get? k = some n → k ≠ p → t'.get? k = some n

theorem Grown.joins (ht : t.Linked) (hp : t.get? p = some np)
    (hlist : np.children = left ++ id :: right) (h : Grown t u spec b) (hblank : Blank t u)
    (hplaced : Edit.Placed u p t.next (some left.length) after t') :
    Joins t p id t.next after t' := by
  rw [← h.id_eq] at hplaced ⊢
  obtain ⟨hshows, hparent, hframe⟩ := h.placed ht hp hlist hplaced
  have hu := h.steps.linked ht
  have ht' := (hplaced.steps hu).linked hu
  have hmem : ∀ x, t'.Reaches b.id x → x ∈ b.handles := by
    intro x hx
    rw [← Branch.handles_withParent (some p) b, hshows.mem_handles_iff ht', Branch.id_withParent]
    exact ht'.beneath_of_reaches hx
  refine ⟨fun x hx => h.fresh x (hmem x hx), fun x hx => ?_, ⟨np, left, right, hp, hlist, hparent⟩,
    hframe⟩
  obtain ⟨m, hm⟩ : ∃ m, t'.get? x = some m := by
    refine hshows.live_of_mem ?_
    rw [Branch.handles_withParent]
    exact hmem x hx
  exact ⟨m, hm, hblank.placed hu hplaced x m (h.fresh x (hmem x hx)) hm⟩

end Tree

namespace Edit

open StyleTree.Tree StyleTree.Action

section General

variable [Data] {t : Tree} {id p : Handle} {np : Node} {left right : List Handle}

/-- What a copy beside its original does, for both sides at once. -/
theorem yields_copyBeside_joins (ht : t.Linked) (hp : t.get? p = some np)
    (hlist : np.children = left ++ id :: right) (after : Bool) :
    Action.Yields (do
      let clone ← copy id
      insertBeside after id (.node clone)) t
      (fun r t' => ∀ c, r = some c → Joins t p id c after t') (fun _ _ => True) := by
  refine (yields_copyBeside_unless ht).mono ?_ fun _ _ _ => trivial
  rintro r t' ⟨spec, -, ⟨rfl, -⟩ | ⟨p', i, hsite, rfl, hplaced⟩⟩ c ⟨⟩
  obtain ⟨b, hb⟩ := ht.grow spec
  have hsite' := site?_of_children (hb.steps.linked ht) (hb.frame p np hp) hlist
  rw [hsite'] at hsite
  cases hsite
  exact hb.joins ht hp hlist (Blank.grow ht (Blank.refl t) spec) hplaced

/-- A prefixed copy is placed like any other one, and has its name from the prefix and the name of
the original. -/
theorem yields_copyPrefixed_joins (ht : t.Linked) (hp : t.get? p = some np)
    (hlist : np.children = left ++ id :: right) (affix : String) :
    (copyPrefixed id affix).Yields t
      (fun r t' => ∀ c, r = some c → Joins t p id c false t' ∧ ∃ n m, t.get? id = some n ∧
        t'.get? c = some m ∧ m.name = some (affix ++ n.name.getD "") ∧
        m.vendor = vendorOfName (affix ++ n.name.getD "")) (fun _ _ => True) := by
  refine (yields_copyPrefixed_unless ht affix).mono ?_ fun _ _ _ => trivial
  rintro r t' ⟨n, spec, u, hn, -, rfl, ⟨rfl, -⟩ | ⟨p', i, hsite, rfl, hplaced⟩⟩ c ⟨⟩
  obtain ⟨b, hb⟩ := ht.grow spec
  have hnamed := hb.rename ht (some (affix ++ n.name.getD ""))
  have htop := hnamed.shows.get?
  rw [Branch.id_rename, Branch.node_rename, hb.id_eq] at htop
  rw [hb.id_eq] at hnamed
  have hu := hnamed.steps.linked ht
  have hblank := (Blank.grow ht (Blank.refl t) spec).update t.next
    (f := fun m => m.rename (some (affix ++ n.name.getD ""))) fun _ => ⟨rfl, rfl⟩
  rw [site?_of_children hu (hnamed.frame p np hp) hlist] at hsite
  cases hsite
  exact ⟨hnamed.joins ht hp hlist hblank hplaced, n, _, hn, hplaced.get?_child hu htop, rfl, rfl⟩

/-- A copy that is not placed is left beside an unchanged tree. -/
theorem yields_copyBeside_none (ht : t.Linked) (after : Bool) :
    Action.Yields (do
      let clone ← copy id
      insertBeside after id (.node clone)) t
      (fun r t' => r = none → ∀ k n, t.get? k = some n → t'.get? k = some n) (fun _ _ => True) := by
  refine (yields_copyBeside_unless ht).mono ?_ fun _ _ _ => trivial
  rintro r t' ⟨spec, -, ⟨rfl, -, rfl⟩ | ⟨p, i, -, rfl, -⟩⟩ hnone
  · obtain ⟨b, hb⟩ := ht.grow spec
    exact hb.frame
  · exact absurd hnone (by simp)

theorem yields_copyPrefixed_none (ht : t.Linked) (affix : String) :
    (copyPrefixed id affix).Yields t
      (fun r t' => r = none → ∀ k n, t.get? k = some n → t'.get? k = some n) (fun _ _ => True) := by
  refine (yields_copyPrefixed_unless ht affix).mono ?_ fun _ _ _ => trivial
  rintro r t' ⟨n, spec, u, -, -, rfl, ⟨rfl, -, rfl⟩ | ⟨p, i, -, rfl, -⟩⟩ hnone
  · obtain ⟨b, hb⟩ := ht.grow spec
    have hframe := (hb.rename ht (some (affix ++ n.name.getD ""))).frame
    rwa [hb.id_eq] at hframe
  · exact absurd hnone (by simp)

/-- Copying a node of a reachable tree to a place beside it.  If a copy is placed, it is new with
all that is below it, without second names and data; it stands right before the node, or right after
it where that was asked for; and no other node has changed.  A prefixed copy has the name with the
prefix before it and the vendor of that name.  If nothing is placed, no node has changed. -/
theorem copyBeside_effect (h : t.Reachable) :
    (∀ p np id, t.get? p = some np → id ∈ np.children →
      (∀ c, ((copyBefore id).run t).result = .ok (some c) →
        Joins t p id c false ((copyBefore id).run t).state) ∧
      (∀ c, ((copyAfter id).run t).result = .ok (some c) →
        Joins t p id c true ((copyAfter id).run t).state) ∧
      ∀ affix c, ((copyPrefixed id affix).run t).result = .ok (some c) →
        Joins t p id c false ((copyPrefixed id affix).run t).state ∧
        ∃ n m, t.get? id = some n ∧ ((copyPrefixed id affix).run t).state.get? c = some m ∧
          m.name = some (affix ++ n.name.getD "") ∧
          m.vendor = vendorOfName (affix ++ n.name.getD "")) ∧
    ∀ id k n, t.get? k = some n →
      (((copyBefore id).run t).result = .ok none → ((copyBefore id).run t).state.get? k = some n) ∧
      (((copyAfter id).run t).result = .ok none → ((copyAfter id).run t).state.get? k = some n) ∧
      ∀ affix, ((copyPrefixed id affix).run t).result = .ok none →
        ((copyPrefixed id affix).run t).state.get? k = some n := by
  have ht := h.linked
  refine ⟨fun p np id hp hid => ?_, fun id k n hk => ⟨?_, ?_, ?_⟩⟩
  · obtain ⟨left, right, hlist⟩ := List.append_of_mem hid
    refine ⟨fun c hok => ?_, fun c hok => ?_, fun affix c hok => ?_⟩
    · exact (yields_copyBeside_joins ht hp hlist false).of_ok hok c rfl
    · exact (yields_copyBeside_joins ht hp hlist true).of_ok hok c rfl
    · exact (yields_copyPrefixed_joins ht hp hlist affix).of_ok hok c rfl
  · exact fun hok => (yields_copyBeside_none ht false).of_ok hok rfl k n hk
  · exact fun hok => (yields_copyBeside_none ht true).of_ok hok rfl k n hk
  · exact fun affix hok => (yields_copyPrefixed_none ht affix).of_ok hok rfl k n hk

end General

/-- The second declaration of a rule is copied to either side and with a prefix; a declaration that
has been detached is copied but not placed. -/
theorem copyBeside_effect_declaration :
    let t := twoRules
    let u := ((detach ⟨3, 1⟩).run t).state
    t.Reachable ∧ u.Reachable ∧
      Joins t ⟨2, 1⟩ ⟨4, 1⟩ ⟨7, 1⟩ false ((copyBefore ⟨4, 1⟩).run t).state ∧
      Joins t ⟨2, 1⟩ ⟨4, 1⟩ ⟨7, 1⟩ true ((copyAfter ⟨4, 1⟩).run t).state ∧
      Joins t ⟨2, 1⟩ ⟨4, 1⟩ ⟨7, 1⟩ false ((copyPrefixed ⟨4, 1⟩ "-o-").run t).state ∧
      (((copyPrefixed ⟨4, 1⟩ "-o-").run t).state.get? ⟨7, 1⟩).map Node.name = some (some "-o-y") ∧
      ((copyBefore ⟨3, 1⟩).run u).result = .ok none ∧
      ((copyBefore ⟨3, 1⟩).run u).state.get? ⟨2, 1⟩ = u.get? ⟨2, 1⟩ := by
  intro t u
  have hu : u.Reachable := reachable_twoRules.edit (.detach ⟨3, 1⟩)
  obtain ⟨np, hp, hlist⟩ : ∃ np, t.get? ⟨2, 1⟩ = some np ∧ np.children = [⟨3, 1⟩, ⟨4, 1⟩] :=
    ⟨_, rfl, rfl⟩
  obtain ⟨nd, hd, hname⟩ : ∃ nd, t.get? ⟨4, 1⟩ = some nd ∧ nd.name = some "y" := ⟨_, rfl, rfl⟩
  obtain ⟨nu, hnu⟩ : ∃ nu, u.get? ⟨2, 1⟩ = some nu := ⟨_, rfl⟩
  have hbefore : ((copyBefore ⟨4, 1⟩).run t).result = .ok (some ⟨7, 1⟩) := by decide +kernel
  have hbehind : ((copyAfter ⟨4, 1⟩).run t).result = .ok (some ⟨7, 1⟩) := by decide +kernel
  have hprefixed : ((copyPrefixed ⟨4, 1⟩ "-o-").run t).result = .ok (some ⟨7, 1⟩) := by
    decide +kernel
  have hnone : ((copyBefore ⟨3, 1⟩).run u).result = .ok none := by decide +kernel
  obtain ⟨hplaced, -⟩ := copyBeside_effect reachable_twoRules
  obtain ⟨hjoins, hjoins', hjoins''⟩ := hplaced ⟨2, 1⟩ np ⟨4, 1⟩ hp (by rw [hlist]; decide)
  obtain ⟨hfirst, n, m, hn, hm, hmname, -⟩ := hjoins'' "-o-" ⟨7, 1⟩ hprefixed
  obtain rfl : nd = n := Option.some.inj (hd.symm.trans hn)
  refine ⟨reachable_twoRules, hu, hjoins _ hbefore, hjoins' _ hbehind, hfirst, ?_, hnone, ?_⟩
  · rw [hm, Option.map_some, hmname, hname]
    rfl
  · rw [hnu, ((copyBeside_effect hu).2 ⟨3, 1⟩ ⟨2, 1⟩ nu hnu).1 hnone]

end Edit

end StyleTree
