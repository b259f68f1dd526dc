import StyleTree.Proofs.Walk.Keeps

/-!
# Reachable trees

Which trees a client can come to hold, and what is true of all of them.

A client starts from an empty tree or from a stylesheet and calls the edits, in any order and with
any arguments, going on after failures as it likes.  It can run plugins over the tree, and the
handlers of these plugins are clients in their turn: they may look at everything, call any edit, and
start walks of their own.  `Client` collects the actions that can be built in this way and
`Reachable` the trees that they lead to.

Every edit is made of steps (`Public.stepwise`), hence so is everything that a client does
(`Client.steps`).  Therefore every reachable tree is linked and keeps its vendors right, and
`links_of_reachable` spells out what that means edge by edge.

A client comes no further than by edits called one after the other (`Client.edits`), so walks need
no thought of their own in what is said about how a reachable tree came about.
-/

namespace StyleTree

open StyleTree.Tree Relation

section General

variable [Data]

/-! ## What a client can do -/

/-- The edits that clients call. -/
inductive Edit.Public : {α : Type} → Edit α → Prop
  | create (kind : Kind) : Public (create kind)
  | plant (spec : Spec) : Public (plant spec)
  | plantText (parent : Handle) (text : String) : Public (plantText parent text)
  | copy (id : Handle) : Public (copy id)
  | setName (id : Handle) (name : String) : Public (setName id name)
  | setValue (id : Handle) (value : String) : Public (setValue id value)
  | setFamily (id : Handle) (family : String) : Public (setFamily id family)
  | setDatum (id : Handle) (key : String) (datum : Datum) : Public (setDatum id key datum)
  | removeDatum (id : Handle) (key : String) : Public (removeDatum id key)
  | add (parent : Handle) (child : Child) (index : Option Nat) (after : Bool) :
      Public (add parent child index after)
  | append (parent : Handle) (child : Child) : Public (append parent child)
  | prepend (parent : Handle) (child : Child) : Public (prepend parent child)
  | insertBefore (id : Handle) (child : Child) : Public (insertBefore id child)
  | insertAfter (id : Handle) (child : Child) : Public (insertAfter id child)
  | copyBefore (id : Handle) : Public (copyBefore id)
  | copyAfter (id : Handle) : Public (copyAfter id)
  | copyPrefixed (id : Handle) (affix : String) : Public (copyPrefixed id affix)
  | replaceWith (id : Handle) (child : Child) : Public (replaceWith id child)
  | remove (id : Handle) : Public (remove id)
  | detach (id : Handle) : Public (detach id)
  | replaceContent (id : Handle) (texts : List String) : Public (replaceContent id texts)
  | compact : Public compact

/-- What a client can do to a workspace: look at it, change its own state, call edits, fail, go on
after a failure, do one thing after another, and run plugins whose handlers are clients too. -/
inductive Client {ι : Type} : {α : Type} → Action (Workspace ι) α → Prop
  | look : Client Action.get
  | own (f : Workspace ι → ι) : Client (Action.modify fun w => { w with client := f w })
  | report (e : Event) : Client (Action.report e)
  | pure {α : Type} (a : α) : Client (Pure.pure a : Action (Workspace ι) α)
  | fail {α : Type} (e : Fault) : Client (Action.fail e : Action (Workspace ι) α)
  | attempt {α : Type} {x : Action (Workspace ι) α} (hx : Client x) : Client x.attempt
  | bind {α β : Type} {x : Action (Workspace ι) α} {f : α → Action (Workspace ι) β}
      (hx : Client x) (hf : ∀ a, Client (f a)) : Client (x >>= f)
  | edit {α : Type} {x : Edit α} (hx : x.Public) : Client x.onWorkspace
  | run (support : Option Targets) (phase : Phase) (id : Handle) (module : PluginModule ι)
      (h : module.All fun handler => ∀ id, Client (handler id)) :
      Client (PluginModule.run support phase id module)
  | applyAt (plan : Plan ι) (steps : Nat) (id : Handle) (context : Option String)
      (h : plan.All fun handler => ∀ id, Client (handler id)) :
      Client (plan.applyAt steps id context)
  | apply (plan : Plan ι) (steps : Nat) (h : plan.All fun handler => ∀ id, Client (handler id)) :
      Client (plan.apply steps)

/-- The trees that a client can come to hold. -/
inductive Tree.Reachable : Tree → Prop
  | empty : Reachable Tree.empty
  | parse {text : String} {specs : List Spec} (h : Css.parse text = .ok specs) :
      Reachable (Tree.ofSpecs specs)
  | run {ι α : Type} {x : Action (Workspace ι) α} (hx : Client x) {w : Workspace ι}
      (hw : Reachable w.tree) : Reachable (x.run w).state.tree

/-! ## Everything is made of steps -/

namespace Edit

open StyleTree.Action

variable {α : Type} {t t' u : Tree} {id p c : Handle}

/-- From a linked tree an edit makes steps, in every outcome. -/
def Stepwise (x : Edit α) : Prop :=
  ∀ t, t.Linked → x.Yields t (fun _ t' => Steps t t') (fun _ t' => Steps t t')

theorem stepwise_change (id : Handle) {f : Node → Node} (hf : Node.Retouch f) :
    (change id f).Stepwise := by
  intro t _
  refine yields_change.of_unchanged ReflTransGen.refl ?_
  rintro _ t' ⟨-, rfl⟩
  exact ReflTransGen.single (Step.change t id hf)

theorem stepwise_add (p : Handle) (child : Child) (index : Option Nat) (after : Bool) :
    (add p child index after).Stepwise := by
  intro t ht
  refine (yields_add ht child).of_unchanged ReflTransGen.refl ?_
  rintro c t' ⟨u, hu, hplaced⟩
  exact (hu.steps ht).trans (hplaced.steps ((hu.steps ht).linked ht))

theorem stepwise_insertBeside (after : Bool) (id : Handle) (child : Child) :
    (insertBeside after id child).Stepwise := by
  intro t ht
  refine (yields_insertBeside ht child).of_unchanged ReflTransGen.refl ?_
  rintro r t' (⟨-, -, rfl⟩ | ⟨p, i, c, u, -, -, hu, hplaced⟩)
  · exact ReflTransGen.refl
  · exact (hu.steps ht).trans (hplaced.steps ((hu.steps ht).linked ht))

theorem stepwise_copyBeside (after : Bool) (id : Handle) :
    Stepwise (do
      let clone ← copy id
      insertBeside after id (.node clone)) := by
  intro t ht
  refine (yields_copyBeside ht).of_unchanged ReflTransGen.refl ?_
  rintro r t' ⟨spec, -, ⟨-, rfl⟩ | ⟨p, i, -, -, hplaced⟩⟩
  · exact ht.steps_grow spec
  · have hs := ht.steps_grow spec
    exact hs.trans (hplaced.steps (hs.linked ht))

theorem stepwise_copyPrefixed (id : Handle) (affix : String) :
    (copyPrefixed id affix).Stepwise := by
  intro t ht
  refine (yields_copyPrefixed ht affix).of_unchanged ReflTransGen.refl ?_
  rintro r t' ⟨n, spec, u, -, -, rfl, h⟩
  have hs := (ht.steps_grow spec).tail (Step.change _ t.next
    (Node.retouch_rename (some (affix ++ n.name.getD ""))))
  rcases h with ⟨-, rfl⟩ | ⟨p, i, -, -, hplaced⟩
  · exact hs
  · exact hs.trans (hplaced.steps (Steps.linked hs ht))

theorem stepwise_replaceWith (id : Handle) (child : Child) : (replaceWith id child).Stepwise := by
  intro t ht
  have hprune : (∃ site, t.site? id = some site) → Steps t (t.prune id) := by
    rintro ⟨⟨p, i⟩, hsite⟩
    obtain ⟨n, hn⟩ := (site?_eq_some hsite).1.live
    exact ReflTransGen.single (Step.prune t id hn)
  refine (yields_replaceWith ht child).mono ?_ ?_
  · rintro r t' (⟨-, -, rfl⟩ | ⟨p, i, c, u, hsite, -, hu, hplaced⟩)
    · exact ReflTransGen.refl
    · have hs := hprune ⟨_, hsite⟩
      have hu' := hu.steps (hs.linked ht)
      exact (hs.trans hu').trans (hplaced.steps (hu'.linked (hs.linked ht)))
  · rintro _ t' (rfl | ⟨hsite, rfl⟩)
    · exact ReflTransGen.refl
    · exact hprune hsite

theorem stepwise_replaceContent (id : Handle) (texts : List String) :
    (replaceContent id texts).Stepwise := by
  intro t ht
  refine (yields_replaceContent ht texts).mono ?_ fun _ _ h => h.1
  rintro _ t' ⟨n, cs, u, hid, hsteps, hframe, horphans, -, rfl⟩
  have hu := hsteps.linked ht
  have hidu := hframe id n hid
  have hrelease : Step u (u.release id n.children) := Step.release u id hidu
  have hid' : ∃ m, (u.release id n.children).get? id = some m := by
    rw [get?_release, hidu]
    exact ⟨_, rfl⟩
  obtain ⟨m, hm⟩ := hid'
  exact (hsteps.tail hrelease).trans ((horphans.release hu hidu).steps_link (hrelease.linked hu) hm)

/-- Every edit is made of steps. -/
theorem Public.stepwise {x : Edit α} (hx : x.Public) : x.Stepwise := by
  cases hx with
  | create kind => exact fun t _ => ReflTransGen.single (Step.insert t _ rfl rfl rfl)
  | plant spec => exact fun t ht => ht.steps_grow spec
  | plantText parent text =>
    intro t ht
    refine yields_plantText.of_unchanged ReflTransGen.refl ?_
    rintro _ t' ⟨spec, rest, -, -, rfl⟩
    exact ht.steps_grow spec
  | copy id =>
    intro t ht
    refine yields_copy.of_unchanged ReflTransGen.refl ?_
    rintro _ t' ⟨spec, -, -, rfl⟩
    exact ht.steps_grow spec
  | setName id name => exact stepwise_change id (Node.retouch_rename _)
  | setValue id value => exact stepwise_change id (Node.retouch_value value)
  | setFamily id family => exact stepwise_change id (Node.retouch_family family)
  | setDatum id key datum => exact stepwise_change id (Node.retouch_data (·.insert key datum))
  | removeDatum id key =>
    intro t ht
    unfold Edit.removeDatum
    rw [yields_bind, yields_node]
    exact ⟨fun n _ => ReflTransGen.single (Step.change t id (Node.retouch_data (·.erase key))),
      fun _ => ReflTransGen.refl⟩
  | add parent child index after => exact stepwise_add parent child index after
  | append parent child => exact stepwise_add parent child none false
  | prepend parent child => exact stepwise_add parent child (some 0) false
  | insertBefore id child => exact stepwise_insertBeside false id child
  | insertAfter id child => exact stepwise_insertBeside true id child
  | copyBefore id => exact stepwise_copyBeside false id
  | copyAfter id => exact stepwise_copyBeside true id
  | copyPrefixed id affix => exact stepwise_copyPrefixed id affix
  | replaceWith id child => exact stepwise_replaceWith id child
  | remove id =>
    intro t _
    refine yields_remove.mono ?_ ?_
    · rintro _ t' ⟨-, ⟨n, hn⟩, rfl⟩
      exact ReflTransGen.single (Step.prune t id hn)
    · rintro _ t' ⟨-, rfl⟩
      exact ReflTransGen.refl
  | detach id =>
    intro t _
    refine yields_detach.of_unchanged ReflTransGen.refl ?_
    rintro _ t' ⟨-, -, rfl⟩
    exact ReflTransGen.single (Step.unlink t id)
  | replaceContent id texts => exact stepwise_replaceContent id texts
  | compact => exact fun t _ => ReflTransGen.single (Step.compact t)

theorem Public.steps {x : Edit α} (hx : x.Public) (ht : t.Linked) : Steps t (x.run t).state :=
  (yields_state_iff ..).mp (hx.stepwise t ht)

/-- An edit keeps "linked, and made from `t` by steps". -/
theorem Stepwise.keeps {x : Edit α} (hx : x.Stepwise) (t : Tree) :
    x.Keeps fun t' => t'.Linked ∧ Steps t t' := by
  rintro t' ⟨ht', hs⟩
  exact (hx t' ht').mono (fun _ u h => ⟨h.linked ht', hs.trans h⟩) fun _ u h =>
    ⟨h.linked ht', hs.trans h⟩

end Edit

open StyleTree.Action

/-- A property of trees that every edit keeps is kept by whatever a client does. -/
theorem Client.keeps_of_public {ι α : Type} {P : Tree → Prop}
    (hP : ∀ {β : Type} {y : Edit β}, y.Public → y.Keeps P) {x : Action (Workspace ι) α}
    (hx : Client x) : x.Keeps fun w => P w.tree := by
  have hedit : ∀ {β : Type} {y : Edit β}, y.Public →
      (y.onWorkspace : Action (Workspace ι) β).Keeps fun w => P w.tree :=
    fun hy w hw => Edit.yields_onWorkspace.mpr (hP hy w.tree hw)
  induction hx with
  | look => exact Holds.get
  | own f => exact Holds.modify fun _ hw => hw
  | report e => exact Holds.report e
  | pure a => exact Holds.pure a
  | fail e => exact Keeps.fail e
  | attempt _ ih => exact Keeps.attempt ih
  | bind _ _ ihx ihf => exact Holds.bind ihx ihf
  | edit hx => exact hedit hx
  | run support phase id module _ ih =>
    exact PluginModule.holds_run fun p hp handler hh => ih p hp handler hh id
  | applyAt plan steps id context _ ih =>
    exact Plan.keeps_applyAt ih (fun id => hedit (.remove id)) steps id context
  | apply plan steps _ ih => exact Plan.keeps_apply ih (fun id => hedit (.remove id)) steps

/-- Whatever a client does keeps "linked, and made from `t` by steps". -/
theorem Client.keeps {ι α : Type} {x : Action (Workspace ι) α} (hx : Client x) (t : Tree) :
    x.Keeps fun w => w.tree.Linked ∧ Steps t w.tree :=
  hx.keeps_of_public fun hy => hy.stepwise.keeps t

/-- Whatever a client does to a linked tree is made of steps. -/
theorem Client.steps {ι α : Type} {x : Action (Workspace ι) α} (hx : Client x) {w : Workspace ι}
    (hw : w.tree.Linked) : Steps w.tree (x.run w).state.tree :=
  ((hx.keeps w.tree).state ⟨hw, ReflTransGen.refl⟩).2

/-- One tree is made from another by edits, one after the other, whatever came of each. -/
def Tree.Edits : Tree → Tree → Prop :=
  ReflTransGen fun t t' => ∃ (α : Type) (x : Edit α), x.Public ∧ (x.run t).state = t'

/-- Whatever a client does to a tree is made of edits. -/
theorem Client.edits {ι α : Type} {x : Action (Workspace ι) α} (hx : Client x) (w : Workspace ι) :
    Edits w.tree (x.run w).state.tree := by
  refine (hx.keeps_of_public (P := Edits w.tree) fun hy t ht => ?_).state ReflTransGen.refl
  rw [yields_state_iff]
  exact ht.tail ⟨_, _, hy, rfl⟩

namespace Tree

variable {t t' : Tree}

/-! ## Every reachable tree is linked -/

theorem get?_empty (k : Handle) :
    Tree.empty.get? k = if k = Tree.empty.root then some (Node.fresh .root) else none := by
  unfold Tree.empty get?
  rw [Arena.get?_insert Arena.sound_empty, Arena.get?_empty]

theorem linked_empty : Tree.empty.Linked := by
  have hhangs : ∀ x p, ¬ Tree.empty.Hangs x p := by
    rintro x p ⟨n, hn, hp⟩
    rw [get?_empty] at hn
    split at hn
    · cases hn
      exact absurd hp (by simp [Node.fresh])
    · exact absurd hn (by simp)
  constructor
  case sound => exact Arena.sound_empty.insert _
  case root => exact ⟨_, by rw [get?_empty, if_pos rfl]⟩
  case hangs_of_lists =>
    rintro p x ⟨n, hn, hx⟩
    rw [get?_empty] at hn
    split at hn
    · cases hn
      exact absurd hx (by simp [Node.fresh])
    · exact absurd hn (by simp)
  case nodup =>
    intro p n hn
    rw [get?_empty] at hn
    split at hn
    · cases hn
      exact List.nodup_nil
    · exact absurd hn (by simp)
  case lists_of_hangs => exact fun x p h => absurd h (hhangs x p)
  case acyclic =>
    intro x hx
    obtain ⟨y, hy, -⟩ := TransGen.head'_iff.mp hx
    exact hhangs x y hy

theorem steps_ofSpecs (specs : List Spec) : Steps Tree.empty (Tree.ofSpecs specs) := by
  obtain ⟨n, hn⟩ := linked_empty.root
  obtain ⟨bs, hbs⟩ := linked_empty.growAll specs hn
  exact hbs.steps

theorem linked_ofSpecs (specs : List Spec) : (Tree.ofSpecs specs).Linked :=
  (steps_ofSpecs specs).linked linked_empty

theorem Reachable.linked (h : t.Reachable) : t.Linked := by
  induction h with
  | empty => exact linked_empty
  | parse _ => exact linked_ofSpecs _
  | run hx _ ih => exact (hx.steps ih).linked ih

theorem labelled_empty : Tree.empty.Labelled := by
  intro k n hn
  rw [get?_empty] at hn
  split at hn
  · cases hn
    rfl
  · exact absurd hn (by simp)

theorem Reachable.labelled (h : t.Reachable) : t.Labelled := by
  induction h with
  | empty => exact labelled_empty
  | parse _ => exact (steps_ofSpecs _).labelled linked_empty labelled_empty
  | run hx hw ih => exact (hx.steps hw.linked).labelled hw.linked ih

theorem rooted_empty : Tree.empty.Rooted :=
  ⟨_, by rw [get?_empty, if_pos rfl], rfl⟩

theorem Reachable.rooted (h : t.Reachable) : t.Rooted := by
  induction h with
  | empty => exact rooted_empty
  | parse _ => exact (steps_ofSpecs _).rooted linked_empty rooted_empty
  | run hx hw ih => exact (hx.steps hw.linked).rooted hw.linked ih

/-! ## Edits alone -/

/-- An edit that clients call leads from reachable trees to reachable trees. -/
theorem Reachable.edit {α : Type} {x : Edit α} (hx : x.Public) (ht : t.Reachable) :
    (x.run t).state.Reachable :=
  Reachable.run (w := (⟨t, ()⟩ : Workspace Unit)) (.edit hx) ht

theorem Reachable.edits (h : t.Reachable) (hs : Edits t t') : t'.Reachable := by
  induction hs with
  | refl => exact h
  | tail _ hx ih =>
    obtain ⟨α, x, hx, rfl⟩ := hx
    exact ih.edit hx

/-- A reachable tree is made by edits from the tree of a stylesheet, which may be empty. -/
theorem Reachable.exists_edits (h : t.Reachable) :
    ∃ specs, (Tree.ofSpecs specs).Reachable ∧ Edits (Tree.ofSpecs specs) t := by
  induction h with
  | empty =>
    have hempty : Tree.ofSpecs [] = Tree.empty := by rw [Tree.ofSpecs, Tree.growAll]
    exact ⟨[], hempty ▸ .empty, hempty ▸ ReflTransGen.refl⟩
  | parse hparse => exact ⟨_, .parse hparse, ReflTransGen.refl⟩
  | run hx _ ih =>
    obtain ⟨specs, hspecs, hs⟩ := ih
    exact ⟨specs, hspecs, hs.trans (hx.edits _)⟩

theorem Edits.steps (h : Edits t t') (ht : t.Linked) : Steps t t' := by
  induction h with
  | refl => exact ReflTransGen.refl
  | tail _ hx ih =>
    obtain ⟨α, x, hx, rfl⟩ := hx
    exact ih.trans (hx.steps (ih.linked ht))

/-- In a reachable tree the root is a node; every listed child is a node that names its parent, and
is listed once; every parent that is named lists the child, unless the child is the root and the
parent has been freed; no way up comes back to where it began; and every node keeps the vendor that
its name carries. -/
theorem links_of_reachable (h : t.Reachable) :
    (∃ n, t.get? t.root = some n) ∧
    (∀ p n, t.get? p = some n → ∀ c ∈ n.children,
      (∃ m, t.get? c = some m ∧ m.parent = some p) ∧ n.children.count c = 1) ∧
    (∀ x n p, t.get? x = some n → n.parent = some p →
      (∃ m, t.get? p = some m ∧ x ∈ m.children) ∨ x = t.root ∧ t.arena.Freed p) ∧
    (∀ x, ¬ TransGen t.Hangs x x) ∧
    (∀ x n, t.get? x = some n → n.vendor = n.name.bind vendorOfName) := by
  have ht := h.linked
  refine ⟨ht.root, ?_, ?_, ht.acyclic, h.labelled⟩
  · intro p n hp c hc
    exact ⟨ht.hangs_of_lists p c ⟨n, hp, hc⟩, List.count_eq_one_of_mem (ht.nodup p n hp) hc⟩
  · intro x n p hx hp
    exact ht.lists_of_hangs x p ⟨n, hx, hp⟩

end Tree

end General

namespace Tree

/-- A client that hangs the root from a new rule and then frees the rule. -/
def hungRoot : Action (Workspace Unit) Nat := do
  let rule ← (Edit.create .rule).onWorkspace
  let root := (← Action.get).tree.root
  let _ ← (Edit.append rule (.node root)).onWorkspace
  Edit.compact.onWorkspace

/-- The root that was hung from a rule names a freed parent, and the tree is in order otherwise. -/
theorem links_of_hungRoot :
    let t := (hungRoot.run ⟨Tree.empty, ()⟩).state.tree
    t.Reachable ∧ (t.get? t.root).bind Node.parent = some ⟨2, 1⟩ ∧ t.arena.Freed ⟨2, 1⟩ ∧
      ∀ x, ¬ TransGen t.Hangs x x := by
  intro t
  have hclient : Client hungRoot :=
    .bind (.edit (.create .rule)) fun rule => .bind .look fun w =>
      .bind (.edit (.append rule (.node w.tree.root))) fun _ => .edit .compact
  have ht : t.Reachable := .run hclient .empty
  have hparent : (t.get? t.root).bind Node.parent = some ⟨2, 1⟩ := rfl
  have hdead : t.get? ⟨2, 1⟩ = none := rfl
  obtain ⟨-, -, hup, hacyclic, -⟩ := links_of_reachable ht
  obtain ⟨n, hn, hp⟩ := Option.bind_eq_some_iff.mp hparent
  refine ⟨ht, hparent, ?_, hacyclic⟩
  rcases hup t.root n ⟨2, 1⟩ hn hp with ⟨m, hm, -⟩ | ⟨-, hf⟩
  · rw [hdead] at hm
    exact absurd hm (by simp)
  · exact hf

end Tree

end StyleTree
