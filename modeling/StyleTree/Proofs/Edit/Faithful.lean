import StyleTree.Proofs.Css.Closed
import StyleTree.Proofs.Edit.Copy

/-!
# Faithful copies

A node is copied by reading back its text, so its copy is as good as its text.  The printer writes
heads as they are stored: a name is not escaped again, blanks at the ends of a value are gone, and
what a text leaves open at its end is left open still.  Such a head takes in the delimiter that is
printed after it, or is read as something else.  This is the only thing that can go wrong, and it
goes wrong at one node at a time: where a delimiter is read as such, nothing before it depends on
what follows.

* `Node.Legible`: the head of the node, up to the delimiter that ends it, is read as the head of a
  node of the same kind with the same head.
* `Rereads text items`: the items are read from the text, and have the text.
* `exists_rereads_of_legible`: a branch with legible nodes is read back from its text.
* `text_copy_of_legible`: so its copy has its kind and its text.
* `text_copy_unclosed`: a string that the end of the text closes is not read back.
-/

namespace StyleTree

open StyleTree.Text Css Css.Item StyleTree.Tree Edit

section General

variable [Data]

/-! ## Heads -/

namespace Node

/-- What is printed of a node before its block or its semicolon. -/
def head (node : Node) : String :=
  match node.kind with
  | .root => ""
  | .rule => withPrelude node.value ""
  | .atRule =>
    let name := "@" ++ node.name.getD ""
    if node.block then name ++ " " ++ withPrelude node.value ""
    else if node.value.getD "" = "" then name
    else name ++ " " ++ node.value.getD ""
  | .declaration => node.name.getD "" ++ ": " ++ node.value.getD ""

/-- The piece that ends the head of a node. -/
def stop (node : Node) : Piece :=
  if node.block then .openBlock else .semicolon

/-- The item that the head of a node makes, with a block without content if the node has one.  There
is none unless the head is read as such up to the piece that ends it. -/
def reread? (node : Node) : Option Spec :=
  let all := pieces (node.head.toList ++ node.stop.text)
  let ps := all.dropLast
  if all = ps ++ [node.stop] ∧ (∀ p ∈ ps, p.isInert = true) ∧
    (∀ p ∈ ps.head?, p.isBlank = false) then
    match ofHead ps.reverse (if node.block then some [] else none) with
    | .ok item => item
    | .error _ => none
  else none

/-- A node whose head is read back as the head of a node of the same kind that has the same head. -/
def Legible (node : Node) : Prop :=
  ∃ s, s ∈ node.reread? ∧ s.kind = node.kind ∧ (ofSpec s).head = node.head

instance (node : Node) : Decidable node.Legible :=
  inferInstanceAs
    (Decidable (∃ s, s ∈ node.reread? ∧ s.kind = node.kind ∧ (ofSpec s).head = node.head))

theorem exists_of_reread? {node : Node} {s : Spec} (h : node.reread? = some s) :
    ∃ ps, pieces (node.head.toList ++ node.stop.text) = ps ++ [node.stop] ∧
      (∀ p ∈ ps, p.isInert = true) ∧ (∀ p, ps.head? = some p → p.isBlank = false) ∧
      ofHead ps.reverse (if node.block then some [] else none) = .ok (some s) := by
  unfold reread? at h
  dsimp only at h
  split at h
  · next hread =>
    obtain ⟨hps, hinert, hfirst⟩ := hread
    refine ⟨_, hps, hinert, hfirst, ?_⟩
    split at h
    · next hof => rw [hof, h]
    · cases h
  · cases h

variable {node : Node}

theorem text_of_block (hkind : node.kind = .rule ∨ node.kind = .atRule) (hblock : node.block = true)
    (lb body : String) : node.text lb body =
      if body = "" then "" else node.head ++ ("\x7b" ++ lb ++ body ++ lb ++ "\x7d") := by
  unfold text head blockText
  rcases hkind with hkind | hkind
  · rw [hkind]
    dsimp only
    split
    · rfl
    · rw [withPrelude_append]
  · rw [hkind, hblock]
    dsimp only
    by_cases hbody : body = ""
    · rw [if_pos hbody, if_pos hbody]
      rfl
    · rw [if_neg hbody, if_neg hbody, withPrelude_append]
      simp [String.append_assoc]

theorem text_of_statement
    (hkind : node.kind = .atRule ∨ node.kind = .declaration ∧ node.name ≠ none)
    (hblock : node.block = false) (lb body : String) : node.text lb body = node.head ++ ";" := by
  unfold text head
  rcases hkind with hkind | ⟨hkind, hname⟩
  · rw [hkind, hblock]
    dsimp only
    rw [if_neg Bool.false_ne_true, if_neg Bool.false_ne_true]
    split <;> rfl
  · obtain ⟨name, hname⟩ := Option.ne_none_iff_exists'.mp hname
    rw [hkind, hname]
    rfl

/-- A node that has no text has none without what is below it. -/
theorem text_empty {lb body : String} (h : node.text lb body = "") : node.text lb "" = "" := by
  unfold text at h ⊢
  cases hkind : node.kind with
  | root => rfl
  | rule => rfl
  | atRule =>
    rw [hkind] at h
    dsimp only at h ⊢
    by_cases hblock : node.block = true
    · rw [if_pos hblock]
      rfl
    · rwa [if_neg hblock] at h ⊢
  | declaration =>
    rw [hkind] at h
    exact h

end Node

namespace Css.Item

omit [Data] in
/-- The form of the item that a head makes. -/
theorem ofHead_cases {head : List Piece} {body : Option (List Spec)} {s : Spec}
    (h : ofHead head body = .ok (some s)) :
    s.block = body.isSome ∧ (body ≠ none → s.kind = .rule ∨ s.kind = .atRule) ∧
      (body = none → s.kind = .atRule ∨ s.kind = .declaration ∧ s.name ≠ none) := by
  unfold ofHead at h
  split at h
  · cases h
    exact ⟨rfl, fun _ => Or.inr rfl, fun _ => Or.inl rfl⟩
  · dsimp only at h
    split at h
    · cases h
      exact ⟨rfl, fun _ => Or.inl rfl, fun hnone => by cases hnone⟩
    · split at h
      · cases h
      · split at h
        · cases h
          exact ⟨rfl, fun hsome => absurd rfl hsome, fun _ => Or.inr ⟨rfl, Option.some_ne_none _⟩⟩
        · cases h

omit [Data] in
/-- What a head makes of a block without content it makes of any block. -/
theorem ofHead_children {head : List Piece} {s : Spec} (h : ofHead head (some []) = .ok (some s))
    (children : List Spec) : ofHead head (some children) = .ok (some { s with children }) := by
  unfold ofHead at h ⊢
  split at h
  · cases h
    rfl
  · cases h
    rfl

end Css.Item

/-! ## Texts of descriptions -/

namespace Spec

mutual

/-- The text of a description. -/
def print (separator : String) : Spec → String
  | ⟨kind, name, value, block, children⟩ =>
    (Node.ofSpec ⟨kind, name, value, block, []⟩).text separator
      (joinTexts separator (printAll separator children))

/-- The texts of several descriptions. -/
def printAll (separator : String) : List Spec → List String
  | [] => []
  | s :: ss => print separator s :: printAll separator ss

end

theorem print_eq (lb : String) (s : Spec) :
    s.print lb = (Node.ofSpec s).text lb (joinTexts lb (printAll lb s.children)) := by
  obtain ⟨kind, name, value, block, children⟩ := s
  rfl

theorem printAll_append (lb : String) (ss ss' : List Spec) :
    printAll lb (ss ++ ss') = printAll lb ss ++ printAll lb ss' := by
  induction ss with
  | nil => rfl
  | cons s ss ih => rw [List.cons_append, printAll, printAll, ih, List.cons_append]

end Spec

namespace Branch

mutual

/-- The text of a branch is that of its description. -/
theorem print_eq (lb : String) (b : Branch) : b.print lb = b.toSpec.print lb := by
  obtain ⟨id, node, bs⟩ := b
  rw [print, toSpec, Spec.print, printAll_eq]
  rfl

theorem printAll_eq (lb : String) (bs : List Branch) :
    printAll lb bs = Spec.printAll lb (toSpecs bs) := by
  match bs with
  | [] => rfl
  | b :: bs => rw [printAll, toSpecs, Spec.printAll, print_eq lb b, printAll_eq lb bs]

end

end Branch

omit [Data] in
theorem joinTexts_singleton (lb text : String) : joinTexts lb [text] = text := by
  unfold joinTexts
  by_cases h : text = ""
  · rw [List.filter_cons_of_neg (by simp [h]), List.filter_nil, String.intercalate_nil, h]
  · rw [List.filter_cons_of_pos (by simp [h]), List.filter_nil, String.intercalate_singleton]

omit [Data] in
/-- Joining texts in two parts. -/
theorem joinTexts_append (lb : String) (xs ys : List String) :
    joinTexts lb (xs ++ ys) = joinTexts lb [joinTexts lb xs, joinTexts lb ys] := by
  induction xs with
  | nil =>
    have hnil : joinTexts lb [] = "" := rfl
    rw [List.nil_append, joinTexts_cons, joinTexts_singleton, if_pos hnil]
  | cons x xs ih =>
    rw [joinTexts_cons, joinTexts_singleton] at ih
    rw [List.cons_append, joinTexts_cons, ih, joinTexts_cons lb x xs, joinTexts_cons,
      joinTexts_singleton]
    by_cases hx : x = ""
    · simp [hx]
    by_cases hxs : joinTexts lb xs = ""
    · simp [hx, hxs]
    by_cases hys : joinTexts lb ys = ""
    · simp [hx, hxs, hys]
    · simp [hx, hxs, hys, String.append_assoc]

/-! ## Legible branches are read back -/

/-- A text from which items are read back that have the same text. -/
structure Rereads (text : String) (items : List Spec) : Prop extends Prints text items where
  same : joinTexts lineFeed (Spec.printAll lineFeed items) = text

theorem rereads_nil : Rereads "" [] := ⟨prints_nil, rfl⟩

/-- One item that is read back. -/
theorem Rereads.of_reads {text : String} (hne : text ≠ "") {spec : Spec}
    (h : Reads text.toList [spec]) (hsame : spec.print lineFeed = text) : Rereads text [spec] := by
  refine ⟨Prints.of_reads hne h, ?_⟩
  rw [Spec.printAll, Spec.printAll, joinTexts_singleton, hsame]

omit [Data] in
theorem isSeparator_of_mem_lineFeed : ∀ c ∈ lineFeed.toList, isSeparator c = true := by
  simp [lineFeed, isSeparator]

theorem Rereads.join_cons {text : String} {texts : List String} {items rest : List Spec}
    (h : Rereads text items) (hrest : Rereads (joinTexts lineFeed texts) rest) :
    Rereads (joinTexts lineFeed (text :: texts)) (items ++ rest) := by
  refine ⟨h.toPrints.join_cons isSeparator_of_mem_lineFeed hrest.toPrints, ?_⟩
  rw [Spec.printAll_append, joinTexts_append, h.same, hrest.same, joinTexts_cons,
    joinTexts_singleton, ← joinTexts_cons]

theorem exists_rereads_joined {bs : List Branch}
    (h : ∀ b ∈ bs, ∃ items, Rereads (b.print lineFeed) items) :
    ∃ items, Rereads (joinTexts lineFeed (Branch.printAll lineFeed bs)) items := by
  induction bs with
  | nil => exact ⟨[], rereads_nil⟩
  | cons b bs ih =>
    obtain ⟨items, hitems⟩ := h b (List.mem_cons_self ..)
    obtain ⟨rest, hrest⟩ := ih fun c hc => h c (List.mem_cons_of_mem _ hc)
    exact ⟨items ++ rest, hitems.join_cons hrest⟩

namespace Node

variable {node : Node} {body : String}

/-- A legible head is read as such wherever the piece that ends it follows. -/
theorem Legible.exists_spellsAt (h : node.Legible) {d : Char} (hstop : node.stop.text = [d]) :
    ∃ ps s, SpellsAt d node.head.toList (ofHead ps) ∧
      ofHead ps (if node.block then some [] else none) = .ok (some s) ∧
      s.kind = node.kind ∧ (ofSpec s).head = node.head := by
  obtain ⟨s, hs, hsame⟩ := h
  obtain ⟨ps, hps, hinert, hfirst, hof⟩ := exists_of_reread? hs
  have hq : node.stop.isInert = false := by
    unfold stop
    split <;> rfl
  rw [hstop] at hps
  refine ⟨ps.reverse, s, fun t => ?_, hof, hsame⟩
  exact ⟨ps, pieces_append hq hstop hps t, hinert, hfirst, fun _ => rfl⟩

/-- A legible node that has a text is read back from it, with what is read back from its content. -/
theorem Legible.exists_rereads (h : node.Legible) {children : List Spec}
    (hbody : Rereads body children) (htext : node.text lineFeed body ≠ "") :
    ∃ s, Rereads (node.text lineFeed body) [s] ∧ s.kind = node.kind := by
  by_cases hblock : node.block = true
  · have hstop : node.stop.text = ['\x7b'] := by
      rw [stop, hblock]
      rfl
    obtain ⟨ps, s, hspells, hof, hkind, hhead⟩ := h.exists_spellsAt hstop
    rw [if_pos hblock] at hof
    obtain ⟨hblock', hkinds, -⟩ := ofHead_cases hof
    have hkinds := hkinds (Option.some_ne_none _)
    have hnode := text_of_block (hkind ▸ hkinds) hblock lineFeed body
    have hne : body ≠ "" := by
      rintro rfl
      exact htext (by rw [hnode, if_pos rfl])
    refine ⟨{ s with children }, .of_reads htext ?_ ?_, hkind⟩
    · rw [hnode, if_neg hne, String.toList_append]
      exact reads_braces isSeparator_of_mem_lineFeed hspells hbody.reads
        (ofHead_children hof children)
    · rw [Spec.print_eq, text_of_block hkinds hblock', hbody.same, hnode, ← hhead]
      rfl
  · have hblock := Bool.eq_false_iff.mpr hblock
    have hstop : node.stop.text = [';'] := by
      rw [stop, hblock]
      rfl
    obtain ⟨ps, s, hspells, hof, hkind, hhead⟩ := h.exists_spellsAt hstop
    rw [hblock, if_neg Bool.false_ne_true] at hof
    obtain ⟨hblock', -, hkinds⟩ := ofHead_cases hof
    have hkinds := hkinds rfl
    -- a declaration without a name has no text
    have hnode : node.text lineFeed body = node.head ++ ";" := by
      refine text_of_statement (hkinds.imp hkind.symm.trans fun hdecl => ?_) hblock _ _
      refine ⟨hkind.symm.trans hdecl.1, fun hname => htext ?_⟩
      rw [text, hkind.symm.trans hdecl.1, hname]
    refine ⟨s, .of_reads htext ?_ ?_, hkind⟩
    · rw [hnode, String.toList_append]
      exact hspells.reads_statement hof
    · rw [Spec.print_eq, text_of_statement hkinds hblock', hhead, hnode]

end Node

section Tree

variable {t : Tree} {b : Branch} {x id : Handle}

/-- Every node at or below a handle that has a text is legible, documents apart. -/
def Tree.Legible (t : Tree) (id : Handle) : Prop :=
  ∀ e ∈ t.below id, e.2.kind ≠ .root → t.text e.1 ≠ .ok "" → e.2.Legible

instance (t : Tree) (id : Handle) : Decidable (t.Legible id) :=
  inferInstanceAs
    (Decidable (∀ e ∈ t.below id, e.2.kind ≠ .root → t.text e.1 ≠ .ok "" → e.2.Legible))

theorem Branch.mem_entries {b c : Branch} (hc : c ∈ b.children) {e : Handle × Node}
    (he : e ∈ c.entries) : e ∈ b.entries := by
  obtain ⟨id, node, bs⟩ := b
  rw [Branch.entries_mk]
  exact List.mem_cons_of_mem _ (List.mem_flatMap.mpr ⟨c, hc, he⟩)

/-- A branch with legible nodes is read back; unless its topmost node is a document, it is read back
as one item of the same kind, or as none if it has no text. -/
theorem exists_rereads_of_legible (ht : t.Linked) (hb : t.Shows b)
    (hlegible : ∀ e ∈ b.entries, e.2.kind ≠ .root → t.text e.1 ≠ .ok "" → e.2.Legible) :
    ∃ items, Rereads (b.print lineFeed) items ∧ (b.node.kind ≠ .root →
      b.print lineFeed ≠ "" → ∃ s, items = [s] ∧ s.kind = b.node.kind) := by
  induction hb with
  | @mk id node bs hnode hchildren hbs ih =>
    have hbody : ∃ items, Rereads (joinTexts lineFeed (Branch.printAll lineFeed bs)) items := by
      have hall : ∀ c ∈ bs, ∃ items, Rereads (c.print lineFeed) items := by
        intro c hc
        obtain ⟨items, h, -⟩ := ih c hc fun e he => hlegible e (Branch.mem_entries hc he)
        exact ⟨items, h⟩
      exact exists_rereads_joined hall
    obtain ⟨children, hbody⟩ := hbody
    rw [Branch.print, Branch.node_mk]
    by_cases hroot : node.kind = .root
    · refine ⟨children, ?_, fun h => absurd hroot h⟩
      rw [Node.text, hroot]
      exact hbody
    by_cases hempty : node.text lineFeed (joinTexts lineFeed (Branch.printAll lineFeed bs)) = ""
    · exact ⟨[], hempty ▸ rereads_nil, fun _ h => absurd hempty h⟩
    · have hprint := (Shows.mk hnode hchildren hbs).print_eq ht lineFeed
      have hmem : (id, node) ∈ (Branch.mk id node bs).entries := by
        rw [Branch.entries_mk]
        exact List.mem_cons_self ..
      have htext : t.text id ≠ .ok "" := by
        rw [Tree.text, ← Branch.id_mk id node bs, hprint, Branch.print]
        exact fun h => hempty (Except.ok.inj h)
      have htop : node.Legible := hlegible (id, node) hmem hroot htext
      obtain ⟨s, hs, hkind⟩ := htop.exists_rereads hbody hempty
      exact ⟨[s], hs, fun _ _ => ⟨s, rfl, hkind⟩⟩

/-- What the copy of a node is made from has the kind and the text of the node. -/
theorem exists_copies_of_legible (ht : t.Linked) (hb : t.Shows b) (hlegible : t.Legible b.id) :
    ∃ spec, Copies t b.id spec ∧ spec.kind = b.node.kind ∧
      spec.print lineFeed = b.print lineFeed := by
  have hentries := hb.below_eq ht
  obtain ⟨items, hitems, hsingle⟩ := exists_rereads_of_legible ht hb (hentries ▸ hlegible)
  have hcopies : ∀ {spec}, _ → Copies t b.id spec := fun h =>
    ⟨b.node, b.print lineFeed, hb.get?, hb.print_eq ht lineFeed, h⟩
  by_cases hempty : b.print lineFeed = ""
  · refine ⟨b.node.bare, hcopies (Or.inl ⟨hempty, rfl⟩), rfl, ?_⟩
    obtain ⟨id, node, bs⟩ := b
    rw [Branch.print] at hempty
    rw [Branch.print, hempty, Spec.print_eq]
    exact Node.text_empty hempty
  have hparse := hitems.reads.parse_eq_ok
  by_cases hroot : b.node.kind = .root
  · have hone : Css.single b.node.kind items = .ok (.root items) := by
      rw [hroot]
      rfl
    refine ⟨_, hcopies (Or.inr ⟨hempty, items, hparse, hone⟩), hroot.symm, ?_⟩
    rw [Spec.print_eq]
    exact hitems.same
  · obtain ⟨s, rfl, hkind⟩ := hsingle hroot hempty
    refine ⟨s, hcopies (Or.inr ⟨hempty, [s], hparse, Css.single_singleton hkind hroot⟩), hkind, ?_⟩
    rw [← hitems.same, Spec.printAll, Spec.printAll, joinTexts_singleton]

/-- A node that there is something to copy from is copied. -/
theorem yields_copy_of_copies {spec : Spec} (h : Copies t id spec) :
    (copy id).Yields t (fun c t' => c = t.next ∧ t' = t.grow spec) fun _ _ => False := by
  refine yields_copy_unless.mono ?_ fun _ _ hnone => hnone.2 spec h
  rintro c t' ⟨spec', h', rfl, rfl⟩
  rw [h.unique h']
  exact ⟨rfl, rfl⟩

/-- A tree that is read is linked. -/
theorem linked_of_readTree {σ : Type} {s : σ} {css : String}
    (h : ((readTree css : Action σ Tree).run s).result = .ok t) : t.Linked := by
  have hyields : (readTree css : Action σ Tree).Yields s (fun t _ => t.Linked) fun _ _ => True := by
    unfold readTree
    rw [Action.yields_bind, yields_read]
    split
    · exact Tree.linked_ofSpecs _
    · trivial
  exact hyields.of_ok h

/-- Legible nodes are copied faithfully.  In a tree that is read from a text, let every node at or
below a handle that has a text, documents apart, be legible.  Then copying the node at the handle
succeeds, the copy is of its kind, and both have the text that the node had. -/
theorem text_copy_of_legible {σ : Type} {s : σ} {css : String}
    (hread : ((readTree css : Action σ Tree).run s).result = .ok t) {n : Node}
    (hid : t.get? id = some n) (hlegible : t.Legible id) :
    ∃ c m text, ((copy id).run t).result = .ok c ∧ ((copy id).run t).state.get? c = some m ∧
      m.kind = n.kind ∧ t.text id = .ok text ∧ ((copy id).run t).state.text id = .ok text ∧
      ((copy id).run t).state.text c = .ok text := by
  have ht := linked_of_readTree hread
  obtain ⟨b, -, rfl, hb⟩ := ht.exists_branch? hid
  obtain rfl : b.node = n := Option.some.inj (hb.get?.symm.trans hid)
  obtain ⟨spec, hcopies, hkind, hprint⟩ := exists_copies_of_legible ht hb hlegible
  obtain ⟨c, hresult, rfl, hstate⟩ := (yields_copy_of_copies hcopies).exists_ok
  obtain ⟨d, hd⟩ := ht.grow spec
  have hgt := hd.steps.linked ht
  have hsame : (t.grow spec).Shows b := hb.congr fun x hx => by
    obtain ⟨m, hm⟩ := hb.live_of_mem hx
    rw [hm, hd.frame x m hm]
  have hcopy := hd.shows.print_eq hgt lineFeed
  rw [d.print_eq, hd.toSpec_eq, hprint, hd.id_eq] at hcopy
  rw [hstate]
  refine ⟨_, d.node, b.print lineFeed, hresult, ?_, ?_, hb.print_eq ht lineFeed,
    hsame.print_eq hgt lineFeed, hcopy⟩
  · rw [← hd.id_eq]
    exact hd.shows.get?
  · rw [← hkind, ← hd.toSpec_eq, d.toSpec_eq]
    rfl

end Tree

end General

/-- A text with delimiters in strings, brackets and addresses, with a comment, escapes, a rule
without content, a name that is read back as a name and a prelude, and a block that is not
closed. -/
def guarded : String :=
  "@media print \x7b a[b=\"\x7d\"]/**/> \\;c \x7b d : url( x;y ) f(;) \"\\\"\x7b\" \x7d e \x7b\x7d @a\\ b \\7b"

/-- What is read from it. -/
def guardedSpecs : List Spec :=
  [.atRule "media" "print" (some [
    .rule "a[b=\"\x7d\"]/**/> \\;c" [.declaration "d" "url( x;y ) f(;) \"\\\"\x7b\""],
    .rule "e" [],
    .atRule "a b" "\\7b" none])]

/-- All of its nodes are legible, and the document is copied with its whole text. -/
theorem text_copy_of_legible_guarded :
    let t := Tree.ofSpecs guardedSpecs
    ((readTree guarded : Action Unit Tree).run ()).result = .ok t ∧ t.Legible t.root ∧
      ∃ n c m text, t.get? t.root = some n ∧ ((copy t.root).run t).result = .ok c ∧
        ((copy t.root).run t).state.get? c = some m ∧ m.kind = n.kind ∧ t.text t.root = .ok text ∧
        ((copy t.root).run t).state.text t.root = .ok text ∧
        ((copy t.root).run t).state.text c = .ok text := by
  intro t
  have hread : ((readTree guarded : Action Unit Tree).run ()).result = .ok t := rfl
  have hlegible : t.Legible t.root := by decide +kernel
  obtain ⟨n, hn⟩ := (Tree.linked_ofSpecs guardedSpecs).root
  exact ⟨hread, hlegible, n, (text_copy_of_legible hread hn hlegible).imp fun _ ⟨m, text, h⟩ =>
    ⟨m, text, hn, h⟩⟩

/-- Not every node that is read is copied faithfully: the string in the value of a declaration is
closed by the end of the text, but takes in the semicolon that is printed after it, so the copy has
one more. -/
theorem text_copy_unclosed :
    let t := Tree.ofSpecs [.declaration "a" "\"b"]
    ((readTree "a: \"b" : Action Unit Tree).run ()).result = .ok t ∧
      ((copy ⟨2, 1⟩).run t).result = .ok ⟨3, 1⟩ ∧ t.text ⟨2, 1⟩ = .ok "a: \"b;" ∧
      ((copy ⟨2, 1⟩).run t).state.text ⟨3, 1⟩ = .ok "a: \"b;;" := by
  refine ⟨rfl, ?_, ?_, ?_⟩
  · decide +kernel
  · decide +kernel
  · decide +kernel

end StyleTree
