import StyleTree.Proofs.Edit.Place
import StyleTree.Proofs.Tree.Nearest

/-!
# The scope of a value

A value that is set on a node is seen from the node and from below it, down to the nodes that hold a
value of their own under the same key.  Three things have to fit for that.  A value of another type
than the one asked for ends the lookup, so it hides the values further up as well as one of the
right type would.  A value that is set on a node can be hidden from below already.  And setting a
value is undone by taking it off only if the node held none before.

* `own? t x key`: what a node itself holds.  `inForce? t x key`: what a lookup finds, of whatever
  type.
* `InScope t id key x`: the way up from `x` leads to `id` past nodes that do not hold the key.
* `Linked.inForce?_hold`: a value that is set is found in its scope, and elsewhere what was found
  before.
* `setDatum_scope`: all of this for reachable trees, with the types.
-/

namespace StyleTree

namespace Tree

open Relation

variable [Data] {t t' : Tree} {id x y : Handle} {n : Node} {key key' : String} {v w : Datum}

/-! ## Lookups by the ways up -/

/-- The value that a node itself holds under a key. -/
def own? (t : Tree) (x : Handle) (key : String) : Option Datum :=
  (t.get? x).bind fun n => n.data[key]?

theorem own?_of_get? (hx : t.get? x = some n) (key : String) : t.own? x key = n.data[key]? := by
  rw [own?, hx, Option.bind_some]

/-- The value that is in force at a node under a key, of whatever type. -/
def inForce? (t : Tree) (x : Handle) (key : String) : Option Datum :=
  (t.lineage x).findSome? fun e => e.2.data[key]?

theorem datum?_eq (t : Tree) (x : Handle) (key : String) (type : DatumType) :
    t.datum? x key type = (t.inForce? x key).bind (Datum.as? type) := rfl

/-- In force is what the nearest node holds that holds anything under the key. -/
theorem Linked.inForce?_eq_some_iff (ht : t.Linked) :
    t.inForce? x key = some v ↔
      ∃ a, t.Nearest (fun y => t.own? y key ≠ none) x a ∧ t.own? a key = some v :=
  ht.findSome?_lineage_iff

/-- What is in force depends on the ways up and on what the nodes hold. -/
theorem Linked.inForce?_congr (ht : t.Linked) (ht' : t'.Linked)
    (hb : ∀ x y, t'.Beneath x y ↔ t.Beneath x y) (hown : ∀ y, t'.own? y key = t.own? y key) :
    t'.inForce? x key = t.inForce? x key := by
  ext v
  rw [ht'.inForce?_eq_some_iff, ht.inForce?_eq_some_iff]
  refine exists_congr fun a => and_congr (nearest_congr hb fun y => by rw [hown]) ?_
  rw [hown]

/-! ## Changes of data -/

/-- The tree with a value set on a node. -/
def hold (t : Tree) (id : Handle) (key : String) (v : Datum) : Tree :=
  t.update id fun n => { n with data := n.data.insert key v }

/-- The tree with the value under a key taken off a node. -/
def unhold (t : Tree) (id : Handle) (key : String) : Tree :=
  t.update id fun n => { n with data := n.data.erase key }

theorem own?_hold (hid : t.get? id = some n) (y : Handle) (key' : String) :
    (t.hold id key v).own? y key' = if y = id ∧ key' = key then some v else t.own? y key' := by
  unfold own? hold
  rw [get?_update]
  by_cases hy : y = id
  · subst hy
    by_cases hkey : key' = key
    · subst hkey
      simp [hid]
    · simp [hid, hkey, Ne.symm hkey, Std.TreeMap.getElem?_insert]
  · simp [hy]

theorem own?_unhold (hid : t.get? id = some n) (y : Handle) (key' : String) :
    (t.unhold id key).own? y key' = if y = id ∧ key' = key then none else t.own? y key' := by
  unfold own? unhold
  rw [get?_update]
  by_cases hy : y = id
  · subst hy
    by_cases hkey : key' = key
    · subst hkey
      simp [hid]
    · simp [hid, hkey, Ne.symm hkey, Std.TreeMap.getElem?_erase]
  · simp [hy]

/-- A change of data leaves the ways up as they are. -/
theorem beneath_data (t : Tree) (id : Handle)
    (g : Std.TreeMap String Datum → Std.TreeMap String Datum) (x y : Handle) :
    (t.update id fun n => { n with data := g n.data }).Beneath x y ↔ t.Beneath x y := by
  have hhangs : ∀ x p, (t.update id fun n => { n with data := g n.data }).Hangs x p ↔ t.Hangs x p :=
    fun x p => hangs_change (Node.retouch_data g).parent
  constructor
  · exact fun h => ReflTransGen.mono (fun x p => (hhangs x p).mp) x y h
  · exact fun h => ReflTransGen.mono (fun x p => (hhangs x p).mpr) x y h

theorem Linked.hold (ht : t.Linked) (id : Handle) (key : String) (v : Datum) :
    (t.hold id key v).Linked :=
  ht.change id (Node.retouch_data (·.insert key v))

theorem Linked.unhold (ht : t.Linked) (id : Handle) (key : String) : (t.unhold id key).Linked :=
  ht.change id (Node.retouch_data (·.erase key))

/-! ## The scope of a node -/

/-- A value under the key on `id` is seen from `x`: `id` is on the way up from `x`, and no node
before it holds the key. -/
structure InScope (t : Tree) (id : Handle) (key : String) (x : Handle) : Prop where
  beneath : t.Beneath x id
  unhidden : ∀ y, t.Beneath x y → t.Beneath y id → y ≠ id → t.own? y key = none

/-- Where a node is in scope, it is the nearest one that holds the key once a value is set on it. -/
theorem InScope.nearest (hid : t.get? id = some n) (h : t.InScope id key x) :
    (t.hold id key v).Nearest (fun y => (t.hold id key v).own? y key ≠ none) x id := by
  have hb := beneath_data t id (·.insert key v)
  refine ⟨(hb x id).mpr h.beneath, ?_, fun y hxy hyi hne => ?_⟩
  · rw [own?_hold hid, if_pos ⟨rfl, rfl⟩]
    simp
  · rw [own?_hold hid, if_neg fun hy => hne hy.1, not_not]
    exact h.unhidden y ((hb x y).mp hxy) ((hb y id).mp hyi) hne

/-- Out of scope, the nearest node that holds the key is the same with the value and without it. -/
theorem Linked.nearest_hold_iff (ht : t.Linked) (hid : t.get? id = some n)
    (hx : ¬ t.InScope id key x) {a : Handle} :
    (t.hold id key v).Nearest (fun y => (t.hold id key v).own? y key ≠ none) x a ↔
      t.Nearest (fun y => t.own? y key ≠ none) x a := by
  have hb := beneath_data t id (·.insert key v)
  have hown : ∀ y, y ≠ id → (t.hold id key v).own? y key = t.own? y key := fun y hy => by
    rw [own?_hold hid, if_neg fun h => hy h.1]
  constructor
  · rintro ⟨hxa, ha, hfirst⟩
    -- the value itself is not found, and so it hides nothing
    have hai : a ≠ id := by
      rintro rfl
      refine hx ⟨(hb x a).mp hxa, fun y hxy hya hne => ?_⟩
      have hy := hfirst y ((hb x y).mpr hxy) ((hb y a).mpr hya) hne
      rwa [hown y hne, not_not] at hy
    refine ⟨(hb x a).mp hxa, hown a hai ▸ ha, fun y hxy hya hne => ?_⟩
    have hy := hfirst y ((hb x y).mpr hxy) ((hb y a).mpr hya) hne
    by_cases hyi : y = id
    · rw [own?_hold hid, if_pos ⟨hyi, rfl⟩] at hy
      exact absurd (Option.some_ne_none v) hy
    · rwa [hown y hyi] at hy
  · rintro ⟨hxa, ha, hfirst⟩
    -- if `id` stood at the nearest node or before it, then it would be in scope
    have hbefore : ∀ y, t.Beneath x y → t.Beneath y a → y ≠ id := by
      rintro y hxy hya rfl
      refine hx ⟨hxy, fun z hxz hzy hne => ?_⟩
      have hza : z ≠ a := by
        rintro rfl
        exact hne (ht.eq_of_beneath_of_beneath hzy hya)
      exact not_not.mp (hfirst z hxz (hzy.trans hya) hza)
    have hai := hbefore a hxa (Beneath.refl t a)
    refine ⟨(hb x a).mpr hxa, (hown a hai).symm ▸ ha, fun y hxy hya hne => ?_⟩
    have hxy' := (hb x y).mp hxy
    have hya' := (hb y a).mp hya
    rw [hown y (hbefore y hxy' hya')]
    exact hfirst y hxy' hya' hne

/-- A value that is set on a node is in force in its scope. -/
theorem Linked.inForce?_hold (ht : t.Linked) (hid : t.get? id = some n) (hx : t.InScope id key x) :
    (t.hold id key v).inForce? x key = some v := by
  rw [(ht.hold id key v).inForce?_eq_some_iff]
  exact ⟨id, hx.nearest hid, by rw [own?_hold hid, if_pos ⟨rfl, rfl⟩]⟩

/-- Out of scope the same is in force as before. -/
theorem Linked.inForce?_hold_of_not (ht : t.Linked) (hid : t.get? id = some n)
    (hx : ¬ t.InScope id key x) : (t.hold id key v).inForce? x key = t.inForce? x key := by
  ext w
  rw [(ht.hold id key v).inForce?_eq_some_iff, ht.inForce?_eq_some_iff]
  refine exists_congr fun a => ?_
  rw [ht.nearest_hold_iff hid hx]
  refine and_congr_right fun hnear => ?_
  have hai : a ≠ id := by
    rintro rfl
    exact hx ⟨hnear.beneath, fun y hxy hya hne => not_not.mp (hnear.first y hxy hya hne)⟩
  rw [own?_hold hid, if_neg fun h => hai h.1]

theorem Linked.inForce?_hold_of_ne (ht : t.Linked) (hid : t.get? id = some n) (hkey : key' ≠ key) :
    (t.hold id key v).inForce? x key' = t.inForce? x key' := by
  refine ht.inForce?_congr (ht.hold id key v) (beneath_data t id (·.insert key v)) fun y => ?_
  rw [own?_hold hid, if_neg fun h => hkey h.2]

/-- Taking off a value from a node that held none before brings everything back. -/
theorem Linked.inForce?_unhold_hold (ht : t.Linked) (hid : t.get? id = some n)
    (hfree : t.own? id key = none) :
    ((t.hold id key v).unhold id key).inForce? x key' = t.inForce? x key' := by
  have hheld : (t.hold id key v).get? id = some { n with data := n.data.insert key v } := by
    rw [Tree.hold, get?_update, if_pos rfl, hid, Option.map_some]
  refine ht.inForce?_congr ((ht.hold id key v).unhold id key) (fun x y => ?_) fun y => ?_
  · exact (beneath_data (t.hold id key v) id (·.erase key) x y).trans
      (beneath_data t id (·.insert key v) x y)
  · rw [own?_unhold hheld, own?_hold hid]
    by_cases h : y = id ∧ key' = key
    · rw [if_pos h, h.1, h.2, hfree]
    · rw [if_neg h, if_neg h]

end Tree

namespace Edit

open StyleTree.Tree StyleTree.Action

section General

variable [Data] {t : Tree} {id : Handle} {n : Node}

theorem setDatum_eq (hid : t.get? id = some n) (key : String) (v : Datum) :
    ((setDatum id key v).run t).result = .ok () ∧
      ((setDatum id key v).run t).state = t.hold id key v := by
  have hyields : (setDatum id key v).Yields t (fun _ t' => t' = t.hold id key v)
      fun _ _ => False := by
    unfold setDatum change
    rw [yields_bind, yields_node]
    exact ⟨fun _ _ => rfl, fun hdead => by simp [hid] at hdead⟩
  obtain ⟨_, hresult, hstate⟩ := hyields.exists_ok
  exact ⟨hresult, hstate⟩

theorem removeDatum_eq (hid : t.get? id = some n) (key : String) :
    ((removeDatum id key).run t).result = .ok (t.own? id key) ∧
      ((removeDatum id key).run t).state = t.unhold id key := by
  have hyields : (removeDatum id key).Yields t
      (fun r t' => r = t.own? id key ∧ t' = t.unhold id key) fun _ _ => False := by
    unfold removeDatum
    rw [yields_bind, yields_node]
    refine ⟨fun m hm => ⟨?_, rfl⟩, fun hdead => by simp [hid] at hdead⟩
    exact (own?_of_get? hm key).symm
  obtain ⟨r, hresult, rfl, hstate⟩ := hyields.exists_ok
  exact ⟨hresult, hstate⟩

/-- A value that is set on a node of a reachable tree.  It is found from every place whose way up
leads to the node past nodes that do not hold the key, by whoever asks for its type; whoever asks
for another type finds nothing there.  From every other place, and under every other key, one finds
what one found before.  If the node held nothing under the key, then taking the value off gives it
back, and every lookup is as it was before the value was set. -/
theorem setDatum_scope (h : t.Reachable) (hid : t.get? id = some n) (key : String) (v : Datum) :
    let o := (setDatum id key v).run t
    o.result = .ok () ∧
    (∀ x type, t.InScope id key x →
      o.state.datum? x key type = if v.type = type then some v else none) ∧
    (∀ x type, ¬ t.InScope id key x → o.state.datum? x key type = t.datum? x key type) ∧
    (∀ x key' type, key' ≠ key → o.state.datum? x key' type = t.datum? x key' type) ∧
    (t.own? id key = none →
      let o' := (removeDatum id key).run o.state
      o'.result = .ok (some v) ∧
      ∀ x key' type, o'.state.datum? x key' type = t.datum? x key' type) := by
  intro o
  have ht := h.linked
  obtain ⟨hresult, hstate⟩ : o.result = .ok () ∧ o.state = t.hold id key v := setDatum_eq hid key v
  rw [hstate]
  refine ⟨hresult, fun x type hx => ?_, fun x type hx => ?_, fun x key' type hkey => ?_,
    fun hfree => ?_⟩
  · rw [datum?_eq, ht.inForce?_hold hid hx]
    rfl
  · rw [datum?_eq, datum?_eq, ht.inForce?_hold_of_not hid hx]
  · rw [datum?_eq, datum?_eq, ht.inForce?_hold_of_ne hid hkey]
  · have hown : (t.hold id key v).own? id key = some v := by
      rw [own?_hold hid, if_pos ⟨rfl, rfl⟩]
    obtain ⟨m, hm, -⟩ := Option.bind_eq_some_iff.mp hown
    obtain ⟨hresult', hstate'⟩ := removeDatum_eq hm key
    refine ⟨hresult'.trans (congrArg _ hown), fun x key' type => ?_⟩
    rw [hstate', datum?_eq, datum?_eq, ht.inForce?_unhold_hold hid hfree]

end General

/-- Two rules, and a number under a key on the second declaration of the first. -/
def numbered : Tree :=
  ((setDatum ⟨4, 1⟩ "k" (Basic.number 7)).run twoRules).state

/-- A text under the same key on the rule is seen from its first declaration and not from its
second, where the number hides it also from those who ask for a text. -/
theorem setDatum_scope_hidden :
    let t := numbered
    let o := (setDatum ⟨2, 1⟩ "k" (Basic.text "v")).run t
    let o' := (removeDatum ⟨2, 1⟩ "k").run o.state
    t.Reachable ∧ o.result = .ok () ∧
      o.state.datum? ⟨3, 1⟩ "k" Basic.Tag.text = some (Basic.text "v") ∧
      o.state.datum? ⟨3, 1⟩ "k" Basic.Tag.number = none ∧
      o.state.datum? ⟨4, 1⟩ "k" Basic.Tag.number = some (Basic.number 7) ∧
      o.state.datum? ⟨4, 1⟩ "k" Basic.Tag.text = none ∧
      o'.result = .ok (some (Basic.text "v")) ∧
      o'.state.datum? ⟨3, 1⟩ "k" Basic.Tag.text = none := by
  intro t o o'
  have hreachable : t.Reachable := reachable_twoRules.edit (.setDatum ⟨4, 1⟩ "k" (Basic.number 7))
  have ht := hreachable.linked
  obtain ⟨n, hn⟩ : ∃ n, t.get? ⟨2, 1⟩ = some n := ⟨_, rfl⟩
  have hhangs : t.Hangs ⟨3, 1⟩ ⟨2, 1⟩ := ⟨_, rfl, rfl⟩
  have hfirst : t.InScope ⟨2, 1⟩ "k" ⟨3, 1⟩ := by
    refine ⟨Beneath.of_hangs hhangs, fun y hxy hyi hne => ?_⟩
    by_cases hy : ⟨3, 1⟩ = y
    · subst hy
      decide +kernel
    · exact absurd (ht.eq_of_beneath_of_beneath hyi (hxy.parent hy hhangs)) hne
  have hsecond : ¬ t.InScope ⟨2, 1⟩ "k" ⟨4, 1⟩ := by
    intro hscope
    have hnone :=
      hscope.unhidden ⟨4, 1⟩ (Beneath.refl t _) (Beneath.of_hangs ⟨_, rfl, rfl⟩) (by decide)
    exact absurd hnone (by decide +kernel)
  obtain ⟨hresult, hin, hout, -, hback⟩ := setDatum_scope hreachable hn "k" (Basic.text "v")
  obtain ⟨hresult', hrestored⟩ := hback (by decide +kernel)
  refine ⟨hreachable, hresult, hin _ Basic.Tag.text hfirst, hin _ Basic.Tag.number hfirst, ?_,
    ?_, hresult', ?_⟩
  · rw [hout _ _ hsecond]
    decide +kernel
  · rw [hout _ _ hsecond]
    decide +kernel
  · rw [hrestored]
    decide +kernel

end Edit

end StyleTree
