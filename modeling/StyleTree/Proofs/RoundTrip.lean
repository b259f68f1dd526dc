import StyleTree.Proofs.Css.Reads
import StyleTree.Proofs.Reachable

/-!
# Reading what was printed

A stylesheet that is made of plain texts is read back from its printed text, with any blanks for the
separator of the printer, also with none.  What has no text is not read back: a rule or a block
at-rule disappears from the printed text if nothing remains in its block, so it is read back without
those.

* `Spec.Plain`: the descriptions that are read back.
* `Spec.tidyAll`: descriptions without the rules and block at-rules that nothing remains in.
* `Prints text items`: the text of a printed branch, which is empty if nothing is to be read back.
* `parse_print`: the printed text of a tree of plain descriptions is read back.
-/

namespace StyleTree

open StyleTree.Text Css Css.Item

/-! ## Plain descriptions -/

namespace Spec

/-- A description all of whose texts are plain, so that it can be read back.  The name of a
declaration has no colon, a head without an at-keyword does not start like one, and only blocks have
children. -/
inductive Plain : Spec → Prop
  | rule {text : String} {children : List Spec} (htext : IsPlain text.toList)
      (hat : text.toList.head? ≠ some '@') (hchildren : ∀ s ∈ children, Plain s) :
      Plain ⟨.rule, none, some text, true, children⟩
  | block {name : String} {value : Option String} {children : List Spec}
      (hname : isAtName name.toList = true)
      (hvalue : ∀ text, value = some text → IsPlain text.toList ∧ text ≠ "")
      (hchildren : ∀ s ∈ children, Plain s) : Plain ⟨.atRule, some name, value, true, children⟩
  | statement {name : String} {value : Option String} (hname : isAtName name.toList = true)
      (hvalue : ∀ text, value = some text → IsPlain text.toList ∧ text ≠ "") :
      Plain ⟨.atRule, some name, value, false, []⟩
  | declaration {name value : String} (hname : IsPlain name.toList) (hcolon : ':' ∉ name.toList)
      (hat : name.toList.head? ≠ some '@') (hvalue : IsPlain value.toList) :
      Plain ⟨.declaration, some name, some value, false, []⟩

mutual

/-- A description without the rules and block at-rules that nothing remains in, or none if it is
such a one itself. -/
def tidy : Spec → Option Spec
  | ⟨kind, name, value, block, children⟩ =>
    let rest := tidyAll children
    let owns := kind = .rule ∨ kind = .atRule ∧ block = true
    if owns ∧ rest = [] then none else some ⟨kind, name, value, block, rest⟩

/-- The descriptions that remain of several. -/
def tidyAll : List Spec → List Spec
  | [] => []
  | s :: ss => (tidy s).toList ++ tidyAll ss

end

end Spec

/-! ## The heads that are printed -/

theorem not_isSeparator_of_plain {s : List Char} (hs : IsPlain s) {c : Char}
    (hc : s.head? = some c) : isSeparator c = false := by
  obtain ⟨r, rfl⟩ := List.head?_eq_some_iff.mp hc
  by_contra hsep
  have hblank := isBlank_of_isSeparator (c := c) (by simpa using hsep)
  rw [isBlank_eq_false_of_trim hs.trimmed] at hblank
  exact absurd hblank (by simp)

theorem blank_space : isBlank ' ' = true := rfl

/-- The prelude of a rule, with the space that is printed after it. -/
theorem spells_prelude {text : String} (htext : IsPlain text.toList)
    (hat : text.toList.head? ≠ some '@') :
    Spells (withPrelude (some text) "").toList (itemOf text.toList) := by
  unfold withPrelude
  dsimp only
  split
  · next h =>
    subst h
    exact spells_plain safe_nil rfl (by simp)
  · next h =>
    have hlist : (text ++ " " ++ "").toList = text.toList ++ [' '] := by simp
    have hplain := spells_plain (u := text.toList ++ [' '])
      (htext.toSafe.append_cons safe_nil (Or.inl rfl))
      (nests_append_cons htext.nested rfl (Or.inl rfl))
    rw [trim_append_blanks _ (by simp [blank_space]), htext.trimmed] at hplain
    rw [hlist]
    refine hplain fun c hc => ?_
    have hne : text.toList ≠ [] := fun hnil => h (String.toList_eq_nil_iff.mp hnil)
    rw [List.head?_append_of_ne_nil _ hne] at hc
    exact ⟨not_isSeparator_of_plain htext hc, fun he => hat (he ▸ hc)⟩

/-- The name and the value of a declaration, with a colon and a space between them. -/
theorem spells_declaration {name value : List Char} (hname : IsPlain name) (hcolon : ':' ∉ name)
    (hat : name.head? ≠ some '@') (hvalue : IsPlain value) :
    ∃ item, Spells (name ++ ':' :: ' ' :: value) item ∧
      item none = .ok (some (.declaration (String.ofList name) (String.ofList value))) := by
  have hspace : Safe (' ' :: value) := safe_nil.append_cons hvalue.toSafe (Or.inl rfl)
  refine ⟨_, spells_plain (hname.toSafe.append_cons hspace (Or.inr rfl))
    (nests_append_cons hname.nested (t := ' ' :: value) hvalue.nested (Or.inr rfl)) ?_, ?_⟩
  · intro c hc
    cases name with
    | nil =>
      obtain rfl : ':' = c := Option.some.inj hc
      decide
    | cons d name => exact ⟨not_isSeparator_of_plain hname hc, fun he => hat (he ▸ hc)⟩
  · have htrim : trim (trimEnd (' ' :: value)) = value := by
      rw [trim_trimEnd, trim_cons_blank blank_space, hvalue.trimmed]
    unfold itemOf
    dsimp only
    rw [trim_append_cons hname.trimmed (by rfl), if_neg (by simp), splitAt?_append hcolon]
    dsimp only
    rw [hname.trimmed, htrim]

/-- What is printed between the name of an at-rule and its block. -/
theorem safe_withPrelude {value : Option String}
    (hvalue : ∀ text, value = some text → IsPlain text.toList ∧ text ≠ "") :
    Safe (withPrelude value "").toList ∧ nests [] (withPrelude value "").toList = true ∧
      trim (withPrelude value "").toList = (value.getD "").toList := by
  cases value with
  | none => exact ⟨safe_nil, rfl, rfl⟩
  | some text =>
    obtain ⟨htext, hne⟩ := hvalue text rfl
    have hlist : (withPrelude (some text) "").toList = text.toList ++ [' '] := by
      unfold withPrelude
      dsimp only
      rw [if_neg hne]
      simp
    rw [hlist]
    refine ⟨htext.toSafe.append_cons safe_nil (Or.inl rfl),
      nests_append_cons htext.nested rfl (Or.inl rfl), ?_⟩
    rw [trim_append_blanks _ (by simp [blank_space]), htext.trimmed]
    rfl

theorem atRule_getD {value : Option String} (hvalue : ∀ text, value = some text → text ≠ "")
    (name : String) (body : Option (List Spec)) :
    Spec.atRule name (value.getD "") body =
      ⟨.atRule, some name, value, body.isSome, body.getD []⟩ := by
  cases value with
  | none => rfl
  | some text =>
    unfold Spec.atRule
    rw [Option.getD_some, if_neg (hvalue text rfl)]

/-- An at-sign, a name and what is printed before the block or the semicolon. -/
theorem spells_atRule {name : String} (hname : isAtName name.toList = true) {value : Option String}
    (hvalue : ∀ text, value = some text → IsPlain text.toList ∧ text ≠ "") {u : List Char}
    (hu : Safe u) (hn : nests [] u = true) (hstart : ∀ c, u.head? = some c → c = ' ')
    (htrim : trim u = (value.getD "").toList) :
    Spells ('@' :: name.toList ++ u) fun body =>
      .ok (some ⟨.atRule, some name, value, body.isSome, body.getD []⟩) := by
  have h := spells_keyword hname hu hn hstart
  simp only [htrim, String.ofList_toList, atRule_getD fun text ht => (hvalue text ht).2] at h
  exact h

/-! ## Printed texts -/

/-- A printed text: it is empty if there is nothing to be read, and the items are read from it. -/
structure Prints (text : String) (items : List Spec) : Prop where
  empty : text = "" ↔ items = []
  reads : Reads text.toList items

theorem prints_nil : Prints "" [] := ⟨by simp, Reads.nil⟩

/-- A text that one item is read from is not empty. -/
theorem Prints.of_reads {text : String} (hne : text ≠ "") {spec : Spec}
    (h : Reads text.toList [spec]) : Prints text [spec] :=
  ⟨by simp [hne], h⟩

theorem joinTexts_eq_empty_iff {lb : String} {texts : List String} :
    joinTexts lb texts = "" ↔ texts.filter (· ≠ "") = [] := by
  unfold joinTexts
  cases hf : texts.filter (· ≠ "") with
  | nil => simp
  | cons text others =>
    have hne : text ≠ "" := by
      have hmem : text ∈ texts.filter (· ≠ "") := hf ▸ List.mem_cons_self ..
      simpa using (List.mem_filter.mp hmem).2
    cases others with
    | nil => simp [hne]
    | cons other others => simp [String.intercalate_cons_cons, hne]

/-- A text in front of joined texts, with a separator if there is something on both sides of it. -/
theorem joinTexts_cons (lb text : String) (texts : List String) :
    joinTexts lb (text :: texts) =
      if text = "" then joinTexts lb texts
      else if joinTexts lb texts = "" then text else text ++ (lb ++ joinTexts lb texts) := by
  by_cases htext : text = ""
  · rw [if_pos htext, joinTexts, List.filter_cons_of_neg (by simp [htext])]
    rfl
  rw [if_neg htext]
  by_cases hempty : joinTexts lb texts = ""
  · rw [if_pos hempty, joinTexts, List.filter_cons_of_pos (by simp [htext]),
      joinTexts_eq_empty_iff.mp hempty, String.intercalate_singleton]
  · rw [if_neg hempty, joinTexts, List.filter_cons_of_pos (by simp [htext])]
    obtain ⟨other, others, hf⟩ := List.exists_cons_of_ne_nil (mt joinTexts_eq_empty_iff.mpr hempty)
    unfold joinTexts
    rw [hf, String.intercalate_cons_cons, String.append_assoc]

/-- Printed texts joined by separators. -/
theorem Prints.join_cons {lb : String} (hlb : ∀ c ∈ lb.toList, isSeparator c = true) {text : String}
    {texts : List String} {items rest : List Spec} (h : Prints text items)
    (hrest : Prints (joinTexts lb texts) rest) :
    Prints (joinTexts lb (text :: texts)) (items ++ rest) := by
  rw [joinTexts_cons]
  by_cases htext : text = ""
  · rw [if_pos htext, h.empty.mp htext]
    exact hrest
  rw [if_neg htext]
  have hitems : items ≠ [] := fun hnil => htext (h.empty.mpr hnil)
  by_cases hempty : joinTexts lb texts = ""
  · rw [if_pos hempty, hrest.empty.mp hempty, List.append_nil]
    exact h
  · rw [if_neg hempty]
    constructor
    · simp [htext, hitems]
    · rw [String.toList_append, String.toList_append]
      exact h.reads.append ((reads_separators hlb).append hrest.reads)

theorem withPrelude_append (value : Option String) (rest : String) :
    withPrelude value rest = withPrelude value "" ++ rest := by
  unfold withPrelude
  split
  · split
    · simp
    · simp [String.append_assoc]
  · simp

/-- A head and a text in braces, with separators around the text. -/
theorem reads_braces {lb : String} (hlb : ∀ c ∈ lb.toList, isSeparator c = true) {u : List Char}
    {item : Option (List Spec) → Except ParseCause (Option Spec)} (hspells : SpellsAt '\x7b' u item)
    {body : String} {children : List Spec} (hbody : Reads body.toList children) {spec : Spec}
    (hitem : item (some children) = .ok (some spec)) :
    Reads (u ++ ("\x7b" ++ lb ++ body ++ lb ++ "\x7d").toList) [spec] := by
  have hsep := reads_separators hlb
  have hinside : Reads (lb.toList ++ (body.toList ++ lb.toList)) children := by
    have h := hsep.append (hbody.append hsep)
    rwa [List.nil_append, List.append_nil] at h
  have hblock := hspells.reads_block hitem hinside
  simpa [String.toList_append] using hblock

/-- A head and a block that is not empty. -/
theorem reads_blockText {lb : String} (hlb : ∀ c ∈ lb.toList, isSeparator c = true)
    (head : List Char) (value : Option String)
    {item : Option (List Spec) → Except ParseCause (Option Spec)} {spec : Spec} {body : String}
    {children : List Spec} (hbody : Prints body children) (hne : body ≠ "")
    (hspells : SpellsAt '\x7b' (head ++ (withPrelude value "").toList) item)
    (hitem : item (some children) = .ok (some spec)) :
    Reads (head ++ (blockText lb value body).toList) [spec] := by
  have hblock := reads_braces hlb hspells hbody.reads hitem
  unfold blockText
  rw [if_neg hne, withPrelude_append]
  simpa [String.toList_append] using hblock

/-! ## Descriptions printed and read back -/

section General

variable [Data]

section Print

variable {lb : String} (hlb : ∀ c ∈ lb.toList, isSeparator c = true) {node : Node} {body : String}
  {children : List Spec}

include hlb

/-- A rule is printed if something remains in its block. -/
theorem prints_rule {text : String} (hkind : node.kind = .rule) (hvalue : node.value = some text)
    (htext : IsPlain text.toList) (hat : text.toList.head? ≠ some '@')
    (hbody : Prints body children) :
    Prints (node.text lb body)
      (if children = [] then [] else [⟨.rule, none, some text, true, children⟩]) := by
  have hnode : node.text lb body = blockText lb (some text) body := by
    unfold Node.text
    rw [hkind, hvalue]
  rw [hnode]
  by_cases hc : children = []
  · rw [if_pos hc, blockText, if_pos (hbody.empty.mpr hc)]
    exact prints_nil
  · have hne : body ≠ "" := fun h => hc (hbody.empty.mp h)
    rw [if_neg hc]
    refine Prints.of_reads ?_ ?_
    · unfold blockText
      rw [if_neg hne, withPrelude_append]
      simp
    · have hspells := (spells_prelude htext hat).spellsAt (d := '\x7b') (Or.inr rfl)
      refine reads_blockText hlb [] (some text) hbody hne hspells ?_
      rw [itemOf, String.ofList_toList]
      rfl

/-- An at-rule with a block is printed if something remains in the block. -/
theorem prints_block {name : String} {value : Option String} (hkind : node.kind = .atRule)
    (hnode : node.name = some name) (hval : node.value = value) (hblock : node.block = true)
    (hname : isAtName name.toList = true)
    (hvalue : ∀ text, value = some text → IsPlain text.toList ∧ text ≠ "")
    (hbody : Prints body children) :
    Prints (node.text lb body)
      (if children = [] then [] else [⟨.atRule, some name, value, true, children⟩]) := by
  have htext : node.text lb body =
      if blockText lb value body = "" then ""
      else "@" ++ name ++ " " ++ blockText lb value body := by
    unfold Node.text
    rw [hkind, hnode, hval, hblock]
    rfl
  rw [htext]
  by_cases hc : children = []
  · rw [if_pos hc, blockText, if_pos (hbody.empty.mpr hc)]
    exact prints_nil
  · have hne : body ≠ "" := fun h => hc (hbody.empty.mp h)
    have hblockText : blockText lb value body ≠ "" := by
      unfold blockText
      rw [if_neg hne, withPrelude_append]
      simp
    rw [if_neg hc, if_neg hblockText]
    refine Prints.of_reads (by simp) ?_
    obtain ⟨hsafe, hnests, htrim⟩ := safe_withPrelude hvalue
    have hspells := spells_atRule hname hvalue (u := ' ' :: (withPrelude value "").toList)
      (safe_nil.append_cons hsafe (Or.inl rfl)) hnests (fun c hc => (Option.some.inj hc).symm)
      (by rw [trim_cons_blank blank_space, htrim])
    have hreads := reads_blockText hlb ('@' :: name.toList ++ [' ']) value hbody hne
      (by simpa using hspells.spellsAt (Or.inr rfl)) rfl
    simpa [String.toList_append] using hreads

end Print

/-- An at-rule without a block is printed with a semicolon. -/
theorem prints_statement {lb : String} {node : Node} {name : String} {value : Option String}
    (hkind : node.kind = .atRule) (hnode : node.name = some name) (hval : node.value = value)
    (hblock : node.block = false) (hname : isAtName name.toList = true)
    (hvalue : ∀ text, value = some text → IsPlain text.toList ∧ text ≠ "") (body : String) :
    Prints (node.text lb body) [⟨.atRule, some name, value, false, []⟩] := by
  have htext : node.text lb body =
      if value.getD "" = "" then "@" ++ name ++ ";"
      else "@" ++ name ++ " " ++ value.getD "" ++ ";" := by
    unfold Node.text
    rw [hkind, hnode, hval, hblock]
    rfl
  rw [htext]
  cases value with
  | none =>
    refine Prints.of_reads (by simp) ?_
    have hspells := spells_atRule hname hvalue (u := []) safe_nil rfl (by simp) rfl
    have hreads := (hspells.spellsAt (Or.inl rfl)).reads_statement rfl
    simpa [String.toList_append] using hreads
  | some text =>
    obtain ⟨hplain, hne⟩ := hvalue text rfl
    rw [Option.getD_some, if_neg hne]
    refine Prints.of_reads (by simp) ?_
    have hspells := spells_atRule hname hvalue (u := ' ' :: text.toList)
      (safe_nil.append_cons hplain.toSafe (Or.inl rfl)) hplain.nested
      (fun c hc => (Option.some.inj hc).symm)
      (by rw [trim_cons_blank blank_space, hplain.trimmed]; rfl)
    have hreads := (hspells.spellsAt (Or.inl rfl)).reads_statement rfl
    simpa [String.toList_append] using hreads

theorem prints_declaration {lb : String} {node : Node} {name value : String}
    (hkind : node.kind = .declaration) (hnode : node.name = some name)
    (hval : node.value = some value) (hname : IsPlain name.toList) (hcolon : ':' ∉ name.toList)
    (hat : name.toList.head? ≠ some '@') (hvalue : IsPlain value.toList) (body : String) :
    Prints (node.text lb body) [⟨.declaration, some name, some value, false, []⟩] := by
  have htext : node.text lb body = name ++ ": " ++ value ++ ";" := by
    unfold Node.text
    rw [hkind, hnode, hval]
    rfl
  rw [htext]
  refine Prints.of_reads (by simp) ?_
  obtain ⟨item, hspells, hitem⟩ := spells_declaration hname hcolon hat hvalue
  rw [String.ofList_toList, String.ofList_toList] at hitem
  have hreads := (hspells.spellsAt (Or.inl rfl)).reads_statement hitem
  simpa [String.toList_append, Spec.declaration] using hreads

omit [Data] in
theorem toList_tidy_block {kind : Kind} {name value : Option String} {children : List Spec}
    (hkind : kind = .rule ∨ kind = .atRule) :
    (Spec.tidy ⟨kind, name, value, true, children⟩).toList =
      if Spec.tidyAll children = [] then []
      else [⟨kind, name, value, true, Spec.tidyAll children⟩] := by
  have howns : kind = .rule ∨ kind = .atRule ∧ true = true := by simpa using hkind
  rw [Spec.tidy]
  by_cases hc : Spec.tidyAll children = []
  · rw [if_pos ⟨howns, hc⟩, if_pos hc]
    rfl
  · rw [if_neg fun h => hc h.2, if_neg hc]
    rfl

mutual

/-- The text of a branch is read back as what remains of its description.  The recursion is that of
the printer. -/
theorem prints_branch {lb : String} (hlb : ∀ c ∈ lb.toList, isSeparator c = true) (b : Branch)
    (h : b.toSpec.Plain) : Prints (b.print lb) b.toSpec.tidy.toList := by
  obtain ⟨id, node, bs⟩ := b
  have hbody := prints_branches hlb bs
  rw [Branch.toSpec_mk] at h ⊢
  rw [Branch.print]
  generalize hs : Spec.mk node.kind node.name node.value node.block (bs.map Branch.toSpec) =
    s at h ⊢
  cases h with
  | rule htext hat hchildren =>
    obtain ⟨hkind, -, hvalue, -, hkids⟩ := Spec.mk.inj hs
    rw [hkids] at hbody
    rw [toList_tidy_block (Or.inl rfl)]
    exact prints_rule hlb hkind hvalue htext hat (hbody hchildren)
  | block hname hvalue hchildren =>
    obtain ⟨hkind, hnode, hval, hblock, hkids⟩ := Spec.mk.inj hs
    rw [hkids] at hbody
    rw [toList_tidy_block (Or.inr rfl)]
    exact prints_block hlb hkind hnode hval hblock hname hvalue (hbody hchildren)
  | statement hname hvalue =>
    obtain ⟨hkind, hnode, hval, hblock, -⟩ := Spec.mk.inj hs
    exact prints_statement hkind hnode hval hblock hname hvalue _
  | declaration hname hcolon hat hvalue =>
    obtain ⟨hkind, hnode, hval, -, -⟩ := Spec.mk.inj hs
    exact prints_declaration hkind hnode hval hname hcolon hat hvalue _

/-- The texts of several branches, joined, are read back as what remains of their descriptions. -/
theorem prints_branches {lb : String} (hlb : ∀ c ∈ lb.toList, isSeparator c = true)
    (bs : List Branch) (h : ∀ s ∈ bs.map Branch.toSpec, s.Plain) :
    Prints (joinTexts lb (Branch.printAll lb bs)) (Spec.tidyAll (bs.map Branch.toSpec)) := by
  match bs with
  | [] => exact prints_nil
  | b :: bs =>
    rw [List.map_cons] at h
    rw [Branch.printAll, List.map_cons, Spec.tidyAll]
    exact (prints_branch hlb b (h _ (List.mem_cons_self ..))).join_cons hlb
      (prints_branches hlb bs fun s hs => h s (List.mem_cons_of_mem _ hs))

end

/-- Reading undoes printing.  Plain descriptions that are made into nodes below a root are printed,
with any separators for the line breaks, to a text that is read back as the same descriptions, less
the rules and block at-rules that nothing remains in. -/
theorem parse_print {t : Tree} (ht : t.Reachable) {root : Handle} {node : Node}
    (hroot : t.get? root = some node) (hkind : node.kind = .root) (hbare : node.children = [])
    {specs : List Spec} (hspecs : ∀ s ∈ specs, s.Plain) (lb : String)
    (hlb : ∀ c ∈ lb.toList, isSeparator c = true) :
    ∃ text, (t.growAll root specs).print lb root = .ok text ∧
      Css.parse text = .ok (Spec.tidyAll specs) := by
  obtain ⟨bs, hbs⟩ := ht.linked.growAll specs hroot
  have hshows :
      (t.growAll root specs).Shows ⟨root, { node with children := bs.map Branch.id }, bs⟩ := by
    refine Tree.Shows.mk ?_ rfl hbs.shows
    rw [hbs.parent_eq, hbare, List.nil_append]
  have hbranch := hshows.branch? (hbs.steps.linked ht.linked)
  refine ⟨joinTexts lb (Branch.printAll lb bs), ?_, ?_⟩
  · unfold Tree.print
    rw [Branch.id_mk] at hbranch
    rw [hbranch]
    show Except.ok (Branch.print lb _) = _
    rw [Branch.print, Node.text, hkind]
  · rw [← hbs.toSpec_eq]
    refine (prints_branches hlb bs ?_).reads.parse_eq_ok
    rwa [hbs.toSpec_eq]

end General

/-- A rule without texts and content, a declaration without texts, and nested functions. -/
def keyframes : List Spec :=
  [.atRule "-webkit-keyframes" "spin" (some [.rule "" [],
    .rule "a:not([b])" [.declaration "" "", .declaration "top" "f((1px) * 2)"]]),
    .atRule "x" "" none]

/-- Printed without any line breaks, the keyframes are read back without the rule that has no
content. -/
theorem parse_print_keyframes :
    (∀ s ∈ keyframes, s.Plain) ∧
      ∃ text, (Tree.ofSpecs keyframes).print "" (Tree.ofSpecs keyframes).root = .ok text ∧
        Css.parse text = .ok [.atRule "-webkit-keyframes" "spin" (some
          [.rule "a:not([b])" [.declaration "" "", .declaration "top" "f((1px) * 2)"]]),
          .atRule "x" "" none] := by
  have hempty : IsPlain "".toList := by decide +kernel
  have hinner : ∀ s ∈ [Spec.declaration "" "", .declaration "top" "f((1px) * 2)"], s.Plain := by
    simp only [List.mem_cons, List.not_mem_nil, or_false]
    rintro s (rfl | rfl)
    · exact .declaration hempty (by decide) (by decide) hempty
    · exact .declaration (by decide +kernel) (by decide) (by decide) (by decide +kernel)
  have hrules : ∀ s ∈ [Spec.rule "" [], .rule "a:not([b])"
      [.declaration "" "", .declaration "top" "f((1px) * 2)"]], s.Plain := by
    simp only [List.mem_cons, List.not_mem_nil, or_false]
    rintro s (rfl | rfl)
    · exact .rule hempty (by decide) (by simp)
    · exact .rule (by decide +kernel) (by decide) hinner
  have hplain : ∀ s ∈ keyframes, s.Plain := by
    simp only [keyframes, List.mem_cons, List.not_mem_nil, or_false]
    rintro s (rfl | rfl)
    · refine Spec.Plain.block (by decide) ?_ hrules
      rintro text h
      cases h
      exact ⟨by decide +kernel, by decide⟩
    · exact Spec.Plain.statement (by decide) (by simp)
  have hroot : Tree.empty.get? Tree.empty.root = some (Node.fresh .root) := by
    rw [Tree.get?_empty, if_pos rfl]
  exact ⟨hplain, parse_print .empty hroot rfl rfl hplain "" (by simp)⟩

end StyleTree
