import StyleTree.Proofs.Edit.Copy
import StyleTree.Proofs.Edit.Remove

/-!
# Nodes without a text

A rule in which nothing is left is not printed, and neither is what consists of such rules.  Whether
a node has a text is decided by the nodes alone: the separator stands between texts and around them,
and there is none where there is no text, so even an empty separator makes no difference.

A node that has no text can be removed without anybody noticing.  Its parent joins the texts that
are not empty, and these are still the same; all nodes further up are made of texts that have not
changed.

* `Branch.isSilent`: the test for branches without a text.
* `Branch.print_eq_empty_iff`: in every style, these are the branches that are printed as nothing.
* `Linked.wording_eq`: the text of a node by the texts of its children.
* `Linked.wording_prune`: pruning a node without a text leaves the texts outside it.
* `print_remove_of_silent`: both for reachable trees.
-/

namespace StyleTree

open StyleTree.Tree

/-! ## Who has no text -/

theorem blockText_eq_empty_iff {lb body : String} {prelude : Option String} :
    blockText lb prelude body = "" ↔ body = "" := by
  unfold blockText
  by_cases hbody : body = ""
  · simp [hbody]
  · rw [if_neg hbody, withPrelude_append]
    simp [hbody]

section General

variable [Data]

namespace Node

variable {node : Node}

/-- Whether a node has no text, given whether there is none below it.  A declaration needs a name; a
document, a rule and an at-rule with a block need something below them; an at-rule without a block
always has a text. -/
def isSilent (node : Node) (body : Bool) : Bool :=
  match node.kind with
  | .root | .rule => body
  | .atRule => node.block && body
  | .declaration => node.name.isNone

theorem text_eq_empty_iff {lb body : String} {empty : Bool} (h : body = "" ↔ empty = true) :
    node.text lb body = "" ↔ node.isSilent empty = true := by
  unfold text isSilent
  cases node.kind with
  | root => exact h
  | rule => exact blockText_eq_empty_iff.trans h
  | atRule =>
    cases node.block with
    | true =>
      dsimp only
      rw [if_pos rfl, Bool.true_and, ← h]
      by_cases hbody : body = ""
      · rw [if_pos (blockText_eq_empty_iff.mpr hbody)]
        exact iff_of_true rfl hbody
      · rw [if_neg (mt blockText_eq_empty_iff.mp hbody)]
        exact iff_of_false (by simp) hbody
    | false =>
      dsimp only
      rw [if_neg Bool.false_ne_true]
      split <;> simp
  | declaration => cases node.name <;> simp

end Node

namespace Branch

mutual

/-- Whether a branch has no text. -/
def isSilent : Branch → Bool
  | ⟨_, node, bs⟩ => node.isSilent (allSilent bs)

/-- Whether none of several branches has a text. -/
def allSilent : List Branch → Bool
  | [] => true
  | b :: bs => isSilent b && allSilent bs

end

mutual

/-- A branch is printed as nothing exactly if it is silent, whatever the style. -/
theorem print_eq_empty_iff (lb : String) (b : Branch) : b.print lb = "" ↔ b.isSilent = true := by
  obtain ⟨id, node, bs⟩ := b
  rw [print, isSilent]
  exact Node.text_eq_empty_iff (join_printAll_eq_empty_iff lb bs)

theorem join_printAll_eq_empty_iff (lb : String) (bs : List Branch) :
    joinTexts lb (printAll lb bs) = "" ↔ allSilent bs = true := by
  match bs with
  | [] => exact iff_of_true rfl rfl
  | b :: bs =>
    have hb := print_eq_empty_iff lb b
    have hbs := join_printAll_eq_empty_iff lb bs
    rw [printAll, allSilent, joinTexts_cons, Bool.and_eq_true, ← hb, ← hbs]
    by_cases htext : b.print lb = ""
    · simp [htext]
    · by_cases hrest : joinTexts lb (printAll lb bs) = "" <;> simp [htext, hrest]

end

theorem printAll_eq_map (lb : String) (bs : List Branch) : printAll lb bs = bs.map (print lb) := by
  induction bs with
  | nil => rfl
  | cons b bs ih => rw [printAll, ih, List.map_cons]

end Branch

/-! ## Texts by the lists of children -/

omit [Data] in
/-- Entries without a text do not show in joined texts. -/
theorem joinTexts_map_filter (lb : String) {x : Handle} {f : Handle → String} (hx : f x = "")
    (l : List Handle) : joinTexts lb ((l.filter (· ≠ x)).map f) = joinTexts lb (l.map f) := by
  induction l with
  | nil => rfl
  | cons c l ih =>
    by_cases hc : c = x
    · rw [List.filter_cons_of_neg (by simp [hc]), ih, List.map_cons, joinTexts_cons, hc, if_pos hx]
    · rw [List.filter_cons_of_pos (by simp [hc]), List.map_cons, List.map_cons, joinTexts_cons, ih,
        ← joinTexts_cons]

namespace Tree

variable {t : Tree} {id x y : Handle} {n m : Node}

/-- The text of a node in a style, empty if there is no such node. -/
def wording (t : Tree) (style : String) (id : Handle) : String :=
  (t.branch? id).elim "" (Branch.print style)

theorem Shows.wording_eq (ht : t.Linked) {b : Branch} (hb : t.Shows b) (style : String) :
    t.wording style b.id = b.print style := by
  rw [wording, hb.branch? ht]
  rfl

theorem Linked.print_eq (ht : t.Linked) (hid : t.get? id = some n) (style : String) :
    t.print style id = .ok (t.wording style id) := by
  obtain ⟨b, -, rfl, hb⟩ := ht.exists_branch? hid
  rw [hb.print_eq ht, hb.wording_eq ht]

/-- The text of a node is made from the texts of its children. -/
theorem Linked.wording_eq (ht : t.Linked) (hid : t.get? id = some n) (style : String) :
    t.wording style id = n.text style (joinTexts style (n.children.map (t.wording style))) := by
  obtain ⟨b, -, rfl, hb⟩ := ht.exists_branch? hid
  rw [hb.wording_eq ht]
  cases hb with
  | @mk id node bs hnode hchildren hbs =>
    obtain rfl : node = n := Option.some.inj (hnode.symm.trans hid)
    have htexts : bs.map (t.wording style ∘ Branch.id) = bs.map (Branch.print style) :=
      List.map_congr_left fun b hb => (hbs b hb).wording_eq ht style
    rw [Branch.print, Branch.printAll_eq_map, ← hchildren, List.map_map, htexts]

/-- Pruning a node that has no text leaves the text of every node outside it. -/
theorem Linked.wording_prune (ht : t.Linked) (hx : t.get? x = some n) {style : String}
    (hempty : t.wording style x = "") (hy : t.get? y = some m) (hout : ¬ t.Beneath y x) :
    (t.prune x).wording style y = t.wording style y := by
  obtain ⟨b, -, rfl, hb⟩ := ht.exists_branch? hy
  clear hy
  induction hb with
  | @mk id node bs hnode hchildren hbs ih =>
    rw [Branch.id_mk] at hout ⊢
    have hget :
        (t.prune x).get? id = some { node with children := node.children.filter (· ≠ x) } := by
      rw [get?_prune_of_not_beneath ht hx hout, hnode, Option.map_some]
    have hkept : ∀ c ∈ node.children.filter (· ≠ x),
        (t.prune x).wording style c = t.wording style c := by
      intro c hc
      obtain ⟨hmem, hne⟩ := List.mem_filter.mp hc
      have hhangs : t.Hangs c id := ht.hangs_of_lists id c ⟨node, hnode, hmem⟩
      rw [← hchildren] at hmem
      obtain ⟨b, hb, rfl⟩ := List.mem_map.mp hmem
      -- a child that is not the node itself is outside it, for a way up to it leads through the
      -- parent
      refine ih b hb fun hbeneath => ?_
      obtain ⟨p, hp, hpx⟩ := hbeneath.hangs_of_ne (by simpa using hne)
      rw [hp.unique hhangs] at hpx
      exact hout hpx
    rw [(ht.prune hx).wording_eq hget, ht.wording_eq hnode, List.map_congr_left hkept,
      joinTexts_map_filter style hempty]
    rfl

end Tree

/-! ## Removing what has no text -/

namespace Edit

variable {t : Tree} {x : Handle} {n : Node}

/-- Nodes of a reachable tree that have no text.  A node has a text, be it empty, in every style,
and if it is empty in one style then it is empty in all of them.  If it is, then removing the node
succeeds, and afterwards every node that was not reached from it has in every style the text that it
had. -/
theorem print_remove_of_silent (h : t.Reachable) (hx : t.get? x = some n) :
    let o := (remove x).run t
    (∀ style, ∃ text, t.print style x = .ok text) ∧
    (∀ style style', t.print style x = .ok "" ↔ t.print style' x = .ok "") ∧
    ∀ style, t.print style x = .ok "" → o.result = .ok x ∧
      ∀ y m, t.get? y = some m → ¬ t.Reaches x y →
        ∀ style', ∃ text, t.print style' y = .ok text ∧ o.state.print style' y = .ok text := by
  intro o
  have ht := h.linked
  obtain ⟨b, -, rfl, hb⟩ := ht.exists_branch? hx
  have hsilent : ∀ style, t.print style b.id = .ok "" ↔ b.isSilent = true := by
    intro style
    rw [hb.print_eq ht, ← b.print_eq_empty_iff style]
    exact ⟨Except.ok.inj, congrArg Except.ok⟩
  refine ⟨fun style => ⟨_, hb.print_eq ht style⟩, fun style style' => ?_, fun style hempty => ?_⟩
  · rw [hsilent, hsilent]
  · obtain ⟨hresult, hstate⟩ : o.result = .ok b.id ∧ o.state = t.prune b.id := remove_eq hx
    refine ⟨hresult, fun y m hy hout style' => ⟨t.wording style' y, ht.print_eq hy style', ?_⟩⟩
    have hempty' : t.wording style' b.id = "" := by
      rw [hb.wording_eq ht, b.print_eq_empty_iff]
      exact (hsilent style).mp hempty
    rw [ht.reaches_iff hx] at hout
    obtain ⟨m', hm'⟩ := live_prune ht hx ⟨m, hy⟩
    rw [hstate, (ht.prune hx).print_eq hm', ht.wording_prune hx hempty' hy hout]

end Edit

end General

namespace Edit

/-- An at-rule with two rules, of which the first holds nothing but an empty rule. -/
def hollowRule : Tree :=
  Tree.ofSpecs
    [.atRule "media" "print" (some [.rule "a" [.rule "c" []], .rule "b" [.declaration "z" "1"]])]

/-- The hollow rule has no text, with a separator or without, and the document does not change when
it is removed. -/
theorem print_remove_of_silent_hollow :
    let t := hollowRule
    let o := (remove ⟨3, 1⟩).run t
    t.Reachable ∧ t.print lineFeed ⟨3, 1⟩ = .ok "" ∧ t.print "" ⟨3, 1⟩ = .ok "" ∧
    o.result = .ok ⟨3, 1⟩ ∧
      (o.state.get? ⟨2, 1⟩).map Node.children = some [⟨5, 1⟩] ∧
      t.print "" t.root = .ok "@media print \x7bb \x7bz: 1;\x7d\x7d" ∧
      o.state.print "" t.root = .ok "@media print \x7bb \x7bz: 1;\x7d\x7d" := by
  intro t o
  have hparse : Css.parse "@media print \x7ba \x7bc \x7b\x7d\x7d b \x7bz: 1\x7d\x7d" =
      .ok [.atRule "media" "print"
        (some [.rule "a" [.rule "c" []], .rule "b" [.declaration "z" "1"]])] := rfl
  have hreachable : t.Reachable := .parse hparse
  obtain ⟨n, hn⟩ : ∃ n, t.get? ⟨3, 1⟩ = some n := ⟨_, rfl⟩
  obtain ⟨r, hr⟩ := hreachable.linked.root
  have hout : ¬ t.Reaches ⟨3, 1⟩ t.root := by
    rw [hreachable.linked.reaches_iff hn, ← hreachable.linked.isAbove_iff hn]
    decide +kernel
  have hempty : t.print lineFeed ⟨3, 1⟩ = .ok "" := by decide +kernel
  have htext : t.print "" t.root = .ok "@media print \x7bb \x7bz: 1;\x7d\x7d" := by decide +kernel
  obtain ⟨-, hstyles, hremove⟩ := print_remove_of_silent hreachable hn
  obtain ⟨hresult, hsame⟩ := hremove lineFeed hempty
  obtain ⟨text, hbefore, hafter⟩ := hsame t.root r hr hout ""
  refine ⟨hreachable, hempty, (hstyles lineFeed "").mp hempty, hresult, by decide +kernel, htext,
    ?_⟩
  rw [hafter, ← hbefore, htext]

end Edit

end StyleTree
