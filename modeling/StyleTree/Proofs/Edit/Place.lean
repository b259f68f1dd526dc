import StyleTree.Proofs.Reachable

/-!
# Where a placed node stands

A node that is placed below a parent is first taken out of the list that it is in.  The index that
says where it goes counts what the list of the parent holds after that.

* `Placed.get?`: what placing does to every node.
* `add_node_effect`: placing in full, the two ways to fail included.

An edit that places a node beside another one looks the index up before the node is taken out.  So
if the node has stood before the other one in the same list, everything behind it has moved up by
one when the index is used, and the node goes one place too far.

* `insertIdx_position_before`, `insertIdx_position_after`: the list after that, in the two cases.
* `adjacent_iff`: a node that is placed beside another one stands next to it unless it has stood
  before it; at the end of a list the place too far does not exist, and a node placed after the last
  one stands right.
* `insertBefore_earlier`: the first of three declarations, placed before the second one, stands
  after it.
-/

namespace StyleTree.Edit

open StyleTree.Tree StyleTree.Action

section General

variable [Data] {t u : Tree} {id p c k : Handle} {n np nc : Node} {index : Option Nat}
  {after : Bool}

/-! ## What placing does to every node -/

/-- The position that an index stands for in a list of a length: the end if there is no index,
otherwise the index or the place after it, and never beyond the end. -/
def position (length : Nat) (index : Option Nat) (after : Bool) : Nat :=
  index.elim length fun i => min (if after then i + 1 else i) length

omit [Data] in
theorem position_le (length : Nat) (index : Option Nat) (after : Bool) :
    position length index after ≤ length := by
  cases index with
  | none => exact Nat.le_refl _
  | some i => exact Nat.min_le_right _ _

omit [Data] in
theorem place_placement (c : Handle) (l : List Handle) (index : Option Nat) (after : Bool) :
    place c (placement l.length index after) l =
      l.insertIdx (position l.length index after) c := by
  cases index with
  | none => exact List.insertIdx_length_self.symm
  | some i =>
    cases after with
    | false => rfl
    | true =>
      by_cases hi : i = l.length
      · -- behind the last entry there is nothing but the end
        have hplacement : placement l.length (some i) true = none := if_pos hi
        have hposition : position l.length (some i) true = l.length := by
          simp [position, hi]
        rw [hplacement, hposition, List.insertIdx_length_self]
        rfl
      · have hplacement : placement l.length (some i) true = some (min (i + 1) l.length) :=
          if_neg hi
        rw [hplacement]
        rfl

/-- Children are listed once, so taking one out everywhere is taking it out once. -/
theorem filter_children_eq_erase (ht : t.Linked) (hk : t.get? k = some n) (c : Handle) :
    n.children.filter (· ≠ c) = n.children.erase c := by
  rw [(ht.nodup k n hk).erase_eq_filter c]
  refine List.filter_congr fun x _ => ?_
  by_cases hx : x = c <;> simp [hx]

theorem Placed.admits (h : Placed t p c index after u) :
    (∃ np, t.get? p = some np) ∧ (∃ nc, t.get? c = some nc) ∧ ¬ t.Beneath p c := by
  cases h with
  | mk hp hc hb _ => exact ⟨⟨_, hp⟩, ⟨_, hc⟩, hb⟩

theorem Placed.ne (h : Placed t p c index after u) : c ≠ p :=
  fun he => h.admits.2.2 (he ▸ Beneath.refl t c)

/-- Placing a node takes it out of everybody's children, puts it among those of the parent, and
gives it the parent. -/
theorem Placed.get? (ht : t.Linked) (h : Placed t p c index after u) (k : Handle) :
    u.get? k = (t.get? k).map fun n =>
      { n with
        parent := if k = c then some p else n.parent
        children :=
          if k = p then
            (n.children.erase c).insertIdx (position (n.children.erase c).length index after) c
          else n.children.erase c } := by
  obtain ⟨hp, hc, hb, hn⟩ := h
  have hne : c ≠ p := fun he => hb (he ▸ Beneath.refl t c)
  have hunlink := get?_unlink ht c
  rw [get?_link _ hne]
  cases hk : t.get? k with
  | none =>
    have hkp : k ≠ p := by
      rintro rfl
      exact absurd (hk.symm.trans hp) (by simp)
    have hkc : k ≠ c := by
      rintro rfl
      exact absurd (hk.symm.trans hc) (by simp)
    rw [if_neg hkp, if_neg hkc, hunlink, hk, Option.map_none, Option.map_none]
  | some m =>
    have herase := filter_children_eq_erase ht hk c
    rw [Option.map_some]
    by_cases hkp : k = p
    · subst hkp
      have hn' := hunlink k
      rw [hk, Option.map_some, hn] at hn'
      obtain rfl := Option.some.inj hn'
      simp only [↓reduceIte, if_neg hne.symm, hn, Option.map_some, herase, place_placement]
    · by_cases hkc : k = c
      · subst hkc
        simp only [if_neg hkp, ↓reduceIte, hunlink, hk, Option.map_some, herase]
      · simp only [if_neg hkp, if_neg hkc, hunlink, hk, Option.map_some, herase]

/-- Only its parent lists a node. -/
theorem erase_children_of_not_hangs (ht : t.Linked) (hk : t.get? k = some n) (h : ¬ t.Hangs c k) :
    n.children.erase c = n.children :=
  List.erase_of_not_mem fun hmem => h (ht.hangs_of_lists k c ⟨n, hk, hmem⟩)

section Placed

variable (ht : t.Linked) (h : Placed t p c index after u)
include ht h

theorem Placed.get?_parent (hp : t.get? p = some np) :
    u.get? p = some
      { np with
        children := (np.children.erase c).insertIdx
          (position (np.children.erase c).length index after) c } := by
  rw [h.get? ht, hp, Option.map_some, if_neg h.ne.symm, if_pos rfl]

theorem Placed.get?_child (hc : t.get? c = some nc) :
    u.get? c = some { nc with parent := some p } := by
  have hself : ¬ t.Hangs c c := fun hh => ht.ne_of_hangs hh rfl
  rw [h.get? ht, hc, Option.map_some, if_pos rfl, if_neg h.ne,
    erase_children_of_not_hangs ht hc hself]

/-- A node other than the new parent and the child loses the child, if it had it. -/
theorem Placed.get?_of_ne (hkp : k ≠ p) (hkc : k ≠ c) :
    u.get? k = (t.get? k).map fun n => { n with children := n.children.erase c } := by
  rw [h.get? ht]
  simp only [if_neg hkp, if_neg hkc]

theorem Placed.get?_of_not_hangs (hkp : k ≠ p) (hkc : k ≠ c) (hk : ¬ t.Hangs c k) :
    u.get? k = t.get? k := by
  rw [h.get?_of_ne ht hkp hkc]
  cases hn : t.get? k with
  | none => rfl
  | some n => rw [Option.map_some, erase_children_of_not_hangs ht hn hk]

end Placed

theorem missing_iff : t.get? p = none ∨ t.get? c = none ↔
    ¬ ((∃ np, t.get? p = some np) ∧ ∃ nc, t.get? c = some nc) := by
  cases t.get? p <;> cases t.get? c <;> simp

/-- Placing a node of a reachable tree.  It fails if one of the two nodes is missing, and otherwise
if the parent is the node itself or beneath it.  Otherwise it succeeds: the parent lists the node at
the position that the index stands for, counted without the node; the node has the new parent; the
parent that it had lists it no longer; and nothing else changes. -/
theorem add_node_effect (h : t.Reachable) (p c : Handle) (index : Option Nat) (after : Bool) :
    let o := (add p (.node c) index after).run t
    (o.result = .error .invalidNode ↔ t.get? p = none ∨ t.get? c = none) ∧
    (o.result = .error .circularParentage ↔
      (∃ np, t.get? p = some np) ∧ (∃ nc, t.get? c = some nc) ∧ t.Beneath p c) ∧
    ∀ np nc, t.get? p = some np → t.get? c = some nc → ¬ t.Beneath p c →
      let rest := np.children.erase c
      o.result = .ok c ∧ o.state.root = t.root ∧
      o.state.get? p = some
        { np with children := rest.insertIdx (position rest.length index after) c } ∧
      o.state.get? c = some { nc with parent := some p } ∧
      (∀ q, nc.parent = some q → q ≠ p →
        o.state.get? q = (t.get? q).map fun n => { n with children := n.children.erase c }) ∧
      ∀ k, k ≠ p → k ≠ c → nc.parent ≠ some k → o.state.get? k = t.get? k := by
  intro o
  have ht := h.linked
  have hyields : Yields (add p (.node c) index after) t _ _ := yields_add_node_unless ht
  cases hresult : o.result with
  | error e =>
    obtain ⟨-, ⟨rfl, hdead⟩ | ⟨rfl, hp, hc, hb⟩⟩ := hyields.of_error hresult
    · have hmissing := missing_iff.mp hdead
      refine ⟨⟨fun _ => hdead, fun _ => rfl⟩, ⟨fun he => absurd he (by simp), ?_⟩, ?_⟩
      · rintro ⟨hp, hc, -⟩
        exact absurd ⟨hp, hc⟩ hmissing
      · intro np nc hp hc
        exact absurd ⟨⟨np, hp⟩, ⟨nc, hc⟩⟩ hmissing
    · refine ⟨⟨fun he => absurd he (by simp), ?_⟩, ⟨fun _ => ⟨hp, hc, hb⟩, fun _ => rfl⟩, ?_⟩
      · exact fun hdead => absurd ⟨hp, hc⟩ (missing_iff.mp hdead)
      · exact fun _ _ _ _ hnb => absurd hb hnb
  | ok c' =>
    obtain ⟨rfl, hplaced⟩ := hyields.of_ok hresult
    obtain ⟨hp, hc, hb⟩ := hplaced.admits
    refine ⟨⟨fun he => absurd he (by simp), ?_⟩, ⟨fun he => absurd he (by simp), ?_⟩, ?_⟩
    · exact fun hdead => absurd ⟨hp, hc⟩ (missing_iff.mp hdead)
    · exact fun hcircle => absurd hcircle.2.2 hb
    · intro np nc hp hc _
      refine ⟨rfl, (hplaced.steps ht).root, hplaced.get?_parent ht hp,
        hplaced.get?_child ht hc, ?_, ?_⟩
      · intro q hq hqp
        exact hplaced.get?_of_ne ht hqp (ht.ne_of_hangs ⟨nc, hc, hq⟩).symm
      · intro k hkp hkc hk
        refine hplaced.get?_of_not_hangs ht hkp hkc ?_
        rintro ⟨m, hm, hmk⟩
        rw [hc] at hm
        cases hm
        exact hk hmk

end General

/-- The tree of two rules, `a` with the handle `2v1` over the declarations `3v1` and `4v1`, and `b`
with the handle `5v1` over the declaration `6v1`. -/
def twoRules : Tree :=
  Tree.ofSpecs [.rule "a" [.declaration "x" "1", .declaration "y" "2"],
    .rule "b" [.declaration "z" "3"]]

theorem reachable_twoRules : twoRules.Reachable := by
  have hparse : Css.parse "a \x7b x: 1; y: 2; \x7d b \x7b z: 3; \x7d" =
      .ok [.rule "a" [.declaration "x" "1", .declaration "y" "2"],
        .rule "b" [.declaration "z" "3"]] := rfl
  exact .parse hparse

/-- A declaration moves from one rule to the end of the other, a rule does not go below its own
declaration, and nothing goes below a handle that was never given out. -/
theorem add_node_effect_across :
    let t := twoRules
    let o := (add ⟨5, 1⟩ (.node ⟨3, 1⟩) (some 0) true).run t
    t.Reachable ∧ o.result = .ok ⟨3, 1⟩ ∧
      (o.state.get? ⟨5, 1⟩).map Node.children = some [⟨6, 1⟩, ⟨3, 1⟩] ∧
      (o.state.get? ⟨3, 1⟩).map Node.parent = some (some ⟨5, 1⟩) ∧
      (o.state.get? ⟨2, 1⟩).map Node.children = some [⟨4, 1⟩] ∧
      o.state.get? ⟨6, 1⟩ = t.get? ⟨6, 1⟩ ∧
      ((add ⟨6, 1⟩ (.node ⟨5, 1⟩) none false).run t).result = .error .circularParentage ∧
      ((add ⟨9, 1⟩ (.node ⟨3, 1⟩) none false).run t).result = .error .invalidNode := by
  intro t o
  have ht := reachable_twoRules.linked
  obtain ⟨np, hp, hnp⟩ : ∃ np, t.get? ⟨5, 1⟩ = some np ∧ np.children = [⟨6, 1⟩] := ⟨_, rfl, rfl⟩
  obtain ⟨nc, hc, hnc⟩ : ∃ nc, t.get? ⟨3, 1⟩ = some nc ∧ nc.parent = some ⟨2, 1⟩ := ⟨_, rfl, rfl⟩
  obtain ⟨nq, hq, hnq⟩ : ∃ nq, t.get? ⟨2, 1⟩ = some nq ∧ nq.children = [⟨3, 1⟩, ⟨4, 1⟩] :=
    ⟨_, rfl, rfl⟩
  have hb : ¬ t.Beneath ⟨5, 1⟩ ⟨3, 1⟩ := by
    rw [← ht.isAbove_iff hc]
    decide +kernel
  have hb' : t.Beneath ⟨6, 1⟩ ⟨5, 1⟩ := by
    rw [← ht.isAbove_iff hp]
    decide +kernel
  obtain ⟨-, -, hplace⟩ := add_node_effect reachable_twoRules ⟨5, 1⟩ ⟨3, 1⟩ (some 0) true
  obtain ⟨hresult, -, hparent, hchild, hformer, hother⟩ := hplace np nc hp hc hb
  obtain ⟨-, hcircle, -⟩ := add_node_effect reachable_twoRules ⟨6, 1⟩ ⟨5, 1⟩ none false
  obtain ⟨hmissing, -⟩ := add_node_effect reachable_twoRules ⟨9, 1⟩ ⟨3, 1⟩ none false
  refine ⟨reachable_twoRules, hresult, ?_, ?_, ?_, ?_, ?_, hmissing.mpr (Or.inl rfl)⟩
  · rw [hparent, Option.map_some, hnp]
    rfl
  · rw [hchild, Option.map_some]
  · rw [hformer ⟨2, 1⟩ hnc (by decide), hq, Option.map_some, Option.map_some, hnq]
    rfl
  · exact hother ⟨6, 1⟩ (by decide) (by decide) (by rw [hnc]; decide)
  · exact hcircle.mpr ⟨⟨_, rfl⟩, ⟨np, hp⟩, hb'⟩

/-! ## Lists cut at an entry -/

section Lists

variable {id c : Handle} {left right : List Handle}

theorem insertIdx_append_right (left right : List Handle) (i : Nat) (c : Handle) :
    (left ++ right).insertIdx (left.length + i) c = left ++ right.insertIdx i c := by
  induction left with
  | nil => simp
  | cons a left ih =>
    rw [List.length_cons, Nat.add_right_comm, List.cons_append, List.insertIdx_succ_cons, ih,
      List.cons_append]

/-- An entry is found where the list is cut. -/
theorem idxOf?_append_cons (h : id ∉ left) (right : List Handle) :
    (left ++ id :: right).idxOf? id = some left.length := by
  induction left with
  | nil => simp [List.idxOf?_cons]
  | cons a left ih =>
    rw [List.mem_cons, not_or] at h
    have hne : (a == id) = false := beq_false_of_ne fun he => h.1 he.symm
    rw [List.cons_append, List.idxOf?_cons, hne, ih h.2]
    rfl

/-- What stands right after an entry that occurs once. -/
theorem pair_infix_iff_head? (hl : id ∉ left) (hr : id ∉ right) :
    [id, c] <:+: left ++ id :: right ↔ right.head? = some c := by
  constructor
  · rintro ⟨s, e, he⟩
    have hcut : left ++ id :: right = s ++ id :: (c :: e) := by rw [← he]; simp
    obtain ⟨-, -, rfl⟩ := (List.append_cons_inj_of_notMem hl hr).mp hcut
    rfl
  · intro hc
    obtain ⟨e, rfl⟩ := List.head?_eq_some_iff.mp hc
    exact ⟨left, e, by simp⟩

/-- What stands right before an entry that occurs once. -/
theorem pair_infix_iff_getLast? (hl : id ∉ left) (hr : id ∉ right) :
    [c, id] <:+: left ++ id :: right ↔ left.getLast? = some c := by
  constructor
  · rintro ⟨s, e, he⟩
    have hcut : left ++ id :: right = (s ++ [c]) ++ id :: e := by rw [← he]; simp
    obtain ⟨rfl, -, -⟩ := (List.append_cons_inj_of_notMem hl hr).mp hcut
    exact List.getLast?_concat
  · intro hc
    obtain ⟨s, rfl⟩ := List.getLast?_eq_some_iff.mp hc
    exact ⟨s, right, by simp⟩

/-- The list without an entry that is not the one where it is cut. -/
theorem erase_append_cons (hne : c ≠ id) (left right : List Handle) :
    (left ++ id :: right).erase c =
      if c ∈ left then left.erase c ++ id :: right else left ++ id :: right.erase c := by
  split
  · next hc => exact List.erase_append_left _ hc
  · next hc =>
    rw [List.erase_append_right _ hc, List.erase_cons_tail (by simpa using hne.symm)]

theorem erase_insertIdx {l : List Handle} {i : Nat} (h : c ∉ l) (hi : i ≤ l.length) :
    (l.insertIdx i c).erase c = l := by
  induction l generalizing i with
  | nil =>
    obtain rfl : i = 0 := Nat.le_zero.mp hi
    simp
  | cons a l ih =>
    cases i with
    | zero => simp
    | succ i =>
      rw [List.mem_cons, not_or] at h
      rw [List.insertIdx_succ_cons, List.erase_cons_tail (by simpa using Ne.symm h.1),
        ih h.2 (Nat.le_of_succ_le_succ hi)]

theorem cut_of_nodup (h : (left ++ id :: right).Nodup) :
    left.Nodup ∧ id ∉ left ∧ id ∉ right ∧ left.Disjoint right := by
  rw [List.nodup_append', List.nodup_cons, List.disjoint_cons_right] at h
  exact ⟨h.1, h.2.2.1, h.2.1.1, h.2.2.2⟩

/-- A child that goes to the index of an entry.  If it has stood before the entry, the index now is
that of the entry after it. -/
theorem insertIdx_position_before (hne : c ≠ id) (left right : List Handle) :
    let rest := (left ++ id :: right).erase c
    rest.insertIdx (position rest.length (some left.length) false) c =
      if c ∈ left then left.erase c ++ id :: c :: right else left ++ c :: id :: right.erase c := by
  intro rest
  have hrest : rest = _ := erase_append_cons hne left right
  by_cases hc : c ∈ left
  · rw [if_pos hc] at hrest ⊢
    have hlength : left.length = (left.erase c).length + 1 := by
      rw [List.length_erase_of_mem hc, Nat.sub_add_cancel (List.length_pos_of_mem hc)]
    have hposition : position rest.length (some left.length) false = (left.erase c).length + 1 := by
      simp [position, hrest, hlength]
    rw [hposition, hrest, insertIdx_append_right]
    rfl
  · rw [if_neg hc] at hrest ⊢
    have hposition : position rest.length (some left.length) false = left.length + 0 := by
      simp [position, hrest]
    rw [hposition, hrest, insertIdx_append_right]
    rfl

/-- A child that goes to the place after the index of an entry.  If it has stood before the entry,
one more entry comes in between, unless there is none. -/
theorem insertIdx_position_after (hne : c ≠ id) (left right : List Handle) :
    let rest := (left ++ id :: right).erase c
    rest.insertIdx (position rest.length (some left.length) true) c =
      if c ∈ left then left.erase c ++ id :: (right.take 1 ++ c :: right.drop 1)
      else left ++ id :: c :: right.erase c := by
  intro rest
  have hrest : rest = _ := erase_append_cons hne left right
  by_cases hc : c ∈ left
  · rw [if_pos hc] at hrest ⊢
    have hlength : left.length = (left.erase c).length + 1 := by
      rw [List.length_erase_of_mem hc, Nat.sub_add_cancel (List.length_pos_of_mem hc)]
    have hposition : position rest.length (some left.length) true =
        (left.erase c).length + (min 1 right.length + 1) := by
      simp only [position, hrest, hlength, Option.elim_some, if_true, List.length_append,
        List.length_cons]
      omega
    rw [hposition, hrest, insertIdx_append_right]
    cases right <;> rfl
  · rw [if_neg hc] at hrest ⊢
    have hposition : position rest.length (some left.length) true = left.length + 1 := by
      simp [position, hrest]
    rw [hposition, hrest, insertIdx_append_right]
    rfl

theorem pair_infix_before_iff (hnodup : (left ++ id :: right).Nodup) (hne : c ≠ id) :
    let rest := (left ++ id :: right).erase c
    [c, id] <:+: rest.insertIdx (position rest.length (some left.length) false) c ↔ c ∉ left := by
  intro rest
  rw [insertIdx_position_before hne]
  split
  · next hc =>
    obtain ⟨hleft, hidleft, hidright, -⟩ := cut_of_nodup hnodup
    have hid : id ∉ left.erase c := fun hmem => hidleft (List.mem_of_mem_erase hmem)
    have hid' : id ∉ c :: right := by simp [hne.symm, hidright]
    rw [pair_infix_iff_getLast? hid hid']
    refine iff_of_false (fun hlast => ?_) (not_not.mpr hc)
    exact hleft.not_mem_erase (List.mem_of_getLast? hlast)
  · next hc => exact iff_of_true ⟨left, right.erase c, by simp⟩ hc

theorem pair_infix_after_iff (hnodup : (left ++ id :: right).Nodup) (hne : c ≠ id) :
    let rest := (left ++ id :: right).erase c
    [id, c] <:+: rest.insertIdx (position rest.length (some left.length) true) c ↔
      c ∉ left ∨ right = [] := by
  intro rest
  rw [insertIdx_position_after hne]
  split
  · next hc =>
    cases right with
    | nil => exact iff_of_true ⟨left.erase c, [], by simp⟩ (Or.inr rfl)
    | cons y right =>
      obtain ⟨-, hidleft, hidright, hdisjoint⟩ := cut_of_nodup hnodup
      have hid : id ∉ left.erase c := fun hmem => hidleft (List.mem_of_mem_erase hmem)
      rw [List.mem_cons, not_or] at hidright
      have hid' : id ∉ y :: c :: right := by simp [hne.symm, hidright]
      refine iff_of_false ?_ (by simp [hc])
      show ¬ [id, c] <:+: left.erase c ++ id :: y :: c :: right
      rw [pair_infix_iff_head? hid hid']
      rintro ⟨⟩
      exact hdisjoint hc (List.mem_cons_self ..)
  · next hc => exact iff_of_true ⟨left, right.erase c, by simp⟩ (Or.inl hc)

end Lists

/-! ## Beside another node -/

section Beside

variable [Data] {t : Tree} {id p c : Handle} {np : Node} {left right : List Handle}

/-- A node that is listed has a site. -/
theorem site?_of_children (ht : t.Linked) (hp : t.get? p = some np)
    (hlist : np.children = left ++ id :: right) : t.site? id = some (p, left.length) := by
  have hnodup := ht.nodup p np hp
  obtain ⟨n, hn, hparent⟩ := ht.hangs_of_lists p id ⟨np, hp, by simp [hlist]⟩
  rw [hlist] at hnodup
  have hleft : id ∉ left := (cut_of_nodup hnodup).2.1
  simp [site?, index?, hn, hparent, hp, hlist, idxOf?_append_cons hleft]

theorem placed_of_insertBeside (ht : t.Linked) (hp : t.get? p = some np)
    (hlist : np.children = left ++ id :: right)
    (hok : ((insertBeside after id (.node c)).run t).result = .ok (some c)) :
    Placed t p c (some left.length) after ((insertBeside after id (.node c)).run t).state := by
  have hsite := site?_of_children ht hp hlist
  rcases (yields_insertBeside ht (.node c)).of_ok hok with
    ⟨hnone, -⟩ | ⟨p', i, c', u, hsite', -, hsupplies, hplaced⟩
  · exact absurd hnone (by simp)
  · cases hsupplies
    rw [hsite] at hsite'
    cases hsite'
    exact hplaced

/-- A node that is placed beside another one stands next to it unless it has stood before it in the
same list; placed after the last entry it stands next to it in any case.  All other entries keep
their order. -/
theorem adjacent_iff (h : t.Reachable) (hp : t.get? p = some np)
    (hlist : np.children = left ++ id :: right) (hne : c ≠ id) :
    let before := (insertBefore id (.node c)).run t
    let behind := (insertAfter id (.node c)).run t
    (before.result = .ok (some c) → ∃ n, before.state.get? p = some n ∧
      n.children.erase c = np.children.erase c ∧ ([c, id] <:+: n.children ↔ c ∉ left)) ∧
    (behind.result = .ok (some c) → ∃ n, behind.state.get? p = some n ∧
      n.children.erase c = np.children.erase c ∧
      ([id, c] <:+: n.children ↔ c ∉ left ∨ right = [])) := by
  intro before behind
  have ht := h.linked
  have hnodup := ht.nodup p np hp
  have hrest : c ∉ np.children.erase c := hnodup.not_mem_erase
  refine ⟨fun hok => ?_, fun hok => ?_⟩
  · have hplaced := placed_of_insertBeside ht hp hlist hok
    refine ⟨_, hplaced.get?_parent ht hp, erase_insertIdx hrest (position_le ..), ?_⟩
    simp only [hlist] at hnodup ⊢
    exact pair_infix_before_iff hnodup hne
  · have hplaced := placed_of_insertBeside ht hp hlist hok
    refine ⟨_, hplaced.get?_parent ht hp, erase_insertIdx hrest (position_le ..), ?_⟩
    simp only [hlist] at hnodup ⊢
    exact pair_infix_after_iff hnodup hne

end Beside

/-- The tree of three declarations `2v1`, `3v1` and `4v1` below the root `1v1`. -/
def threeDeclarations : Tree :=
  Tree.ofSpecs [.declaration "a" "1", .declaration "b" "2", .declaration "c" "3"]

theorem reachable_threeDeclarations : threeDeclarations.Reachable := by
  have hparse : Css.parse "a: 1; b: 2; c: 3;" =
      .ok [.declaration "a" "1", .declaration "b" "2", .declaration "c" "3"] := rfl
  exact .parse hparse

/-- The last of three declarations can be placed on either side of the second one. -/
theorem adjacent_iff_later :
    let t := threeDeclarations
    let before := (insertBefore ⟨3, 1⟩ (.node ⟨4, 1⟩)).run t
    let behind := (insertAfter ⟨3, 1⟩ (.node ⟨4, 1⟩)).run t
    t.Reachable ∧
      (∃ n, before.state.get? ⟨1, 1⟩ = some n ∧ [⟨4, 1⟩, ⟨3, 1⟩] <:+: n.children) ∧
      ∃ n, behind.state.get? ⟨1, 1⟩ = some n ∧ [⟨3, 1⟩, ⟨4, 1⟩] <:+: n.children := by
  intro t before behind
  obtain ⟨np, hp, hlist⟩ : ∃ np, t.get? ⟨1, 1⟩ = some np ∧
      np.children = [⟨2, 1⟩] ++ ⟨3, 1⟩ :: [⟨4, 1⟩] := ⟨_, rfl, rfl⟩
  have hbefore : before.result = .ok (some ⟨4, 1⟩) := by decide +kernel
  have hbehind : behind.result = .ok (some ⟨4, 1⟩) := by decide +kernel
  have hadjacent := adjacent_iff reachable_threeDeclarations hp hlist (c := ⟨4, 1⟩) (by decide)
  obtain ⟨n, hn, -, hnext⟩ := hadjacent.1 hbefore
  obtain ⟨m, hm, -, hnext'⟩ := hadjacent.2 hbehind
  exact ⟨reachable_threeDeclarations, ⟨n, hn, hnext.mpr (by decide)⟩,
    ⟨m, hm, hnext'.mpr (Or.inl (by decide))⟩⟩

/-- A node that is placed beside another one need not stand next to it: the first of three
declarations, placed before the second one, comes to stand after it, and placed after the second one
it comes to stand last. -/
theorem insertBefore_earlier :
    let t := threeDeclarations
    let before := (insertBefore ⟨3, 1⟩ (.node ⟨2, 1⟩)).run t
    let behind := (insertAfter ⟨3, 1⟩ (.node ⟨2, 1⟩)).run t
    t.Reachable ∧ (t.get? ⟨1, 1⟩).map Node.children = some [⟨2, 1⟩, ⟨3, 1⟩, ⟨4, 1⟩] ∧
      before.result = .ok (some ⟨2, 1⟩) ∧
      (before.state.get? ⟨1, 1⟩).map Node.children = some [⟨3, 1⟩, ⟨2, 1⟩, ⟨4, 1⟩] ∧
      behind.result = .ok (some ⟨2, 1⟩) ∧
      (behind.state.get? ⟨1, 1⟩).map Node.children = some [⟨3, 1⟩, ⟨4, 1⟩, ⟨2, 1⟩] := by
  intro t before behind
  refine ⟨reachable_threeDeclarations, ?_, ?_, ?_, ?_, ?_⟩ <;> decide +kernel

end StyleTree.Edit
