import StyleTree.Proofs.Css.Layout

/-!
# The form of what is read

Copying, printing and the plugins take for granted that a rule has no name and that a declaration
has both a name and a value.  Nothing in a description enforces it; the reader makes no others.

* `Spec.Formed`: the descriptions that the reader makes, at every depth.
* `decodeName_ne_nil`: an at-sign that starts a keyword is followed by a name, escapes or not, and
  the name that it spells is not empty.  So a keyword in a head has a name (`Named`).
* `formed_of_ofHead`: every item that is made of a head is formed, if the items of its block are.
* `formed_of_parse`: every item of a text is formed.  Each step of the assembly keeps this of all
  items that are finished so far, and closing the open blocks does too.
-/

namespace StyleTree

/-- A text without blanks at its ends. -/
def IsTrimmed (s : String) : Prop := Text.trim s.toList = s.toList

/-- The descriptions that can be read from a text.  A rule has a prelude, be it empty.  An at-rule
has a name, no prelude or one that is not empty, and children only in a block.  A declaration has a
name without a colon and a value, and nothing below it.  All texts but the names of at-rules are
trimmed. -/
inductive Spec.Formed : Spec → Prop
  | rule {prelude : String} {children : List Spec} (hprelude : IsTrimmed prelude)
      (hchildren : ∀ s ∈ children, Formed s) : Formed ⟨.rule, none, some prelude, true, children⟩
  | atRule {name : String} {prelude : Option String} {block : Bool} {children : List Spec}
      (hname : name ≠ "") (hprelude : ∀ text, prelude = some text → text ≠ "" ∧ IsTrimmed text)
      (hblock : children ≠ [] → block = true) (hchildren : ∀ s ∈ children, Formed s) :
      Formed ⟨.atRule, some name, prelude, block, children⟩
  | declaration {name value : String} (hname : IsTrimmed name) (hcolon : ':' ∉ name.toList)
      (hvalue : IsTrimmed value) : Formed ⟨.declaration, some name, some value, false, []⟩

namespace Text

theorem isTrimmed_ofList_trim (s : List Char) : IsTrimmed (String.ofList (trim s)) := by
  rw [IsTrimmed, String.toList_ofList, trim_trim]

theorem mem_of_mem_trim {c : Char} {s : List Char} (h : c ∈ trim s) : c ∈ s := by
  obtain ⟨l, r, hs, -, -⟩ := exists_trim s
  rw [hs]
  exact List.mem_append_left _ (List.mem_append_right _ h)

/-- A text is divided at the first occurrence of a character, so that there is none before it. -/
theorem notMem_of_splitAt?_eq_some {c : Char} {s t u : List Char} (h : splitAt? c s = some (t, u)) :
    c ∉ t := by
  unfold splitAt? at h
  rw [List.span_eq_takeWhile_dropWhile] at h
  split at h
  · cases h
  · next hspan =>
    cases h
    rw [← (Prod.mk.inj hspan).1]
    intro hc
    simpa using List.mem_takeWhile_imp hc

end Text

namespace Css

open StyleTree.Text Item

/-! ## Names of at-rules -/

theorem decodeFrom_cons_ne_nil (c : Char) (s : List Char) : decodeFrom 0 (c :: s) ≠ [] := by
  rw [decodeFrom]
  split <;> exact List.cons_ne_nil _ _

/-- Where a name starts there is a name. -/
theorem exists_nameLength {s : List Char} (h : startsName s = true) :
    ∃ c r n, s = c :: r ∧ nameLength 0 s = n + 1 := by
  cases s with
  | nil => cases h
  | cons c r =>
    rw [startsName_cons] at h
    rw [nameLength]
    by_cases hname : isNameChar c = true
    · exact ⟨c, r, _, rfl, if_pos hname⟩
    · have hslash : c = '\\' ∧ startsNewline r = false := by
        split at h
        · next hc => exact absurd (by rw [hc]; rfl) hname
        · split at h
          · next hc => exact ⟨hc, by simpa using h⟩
          · exact absurd (by simp [isNameChar, h]) hname
      refine ⟨c, r, nameLength (escapeLength r) r, rfl, ?_⟩
      rw [if_neg hname, if_pos (by simp [hslash])]

/-- The name of a keyword is not empty. -/
theorem decodeName_ne_nil {s : List Char} (h : startsName s = true) :
    decodeName (s.take (nameLength 0 s)) ≠ [] := by
  obtain ⟨c, r, n, rfl, hn⟩ := exists_nameLength h
  rw [hn, List.take_succ_cons]
  exact decodeFrom_cons_ne_nil _ _

theorem ne_nil_of_read_eq_atKeyword {s name : List Char} {n : Nat}
    (h : Token.read '@' s = (.atKeyword name, n)) : name ≠ [] := by
  have hread : Token.read '@' s =
      if startsName s then (.atKeyword (decodeName (s.take (nameLength 0 s))), nameLength 0 s)
      else (.plain, 0) := rfl
  rw [hread] at h
  split at h
  · next hstarts =>
    cases h
    exact decodeName_ne_nil hstarts
  · cases h

/-- Every keyword among the pieces has a name. -/
def Named (ps : List Piece) : Prop :=
  ∀ name text, .keyword name text ∈ ps → name ≠ []

theorem named_pieces (w : List Char) : Named (pieces w) := by
  intro name text hmem
  obtain ⟨before, after, hps⟩ := List.append_of_mem hmem
  have hfaithful := allFaithful_pieces w
  rw [hps] at hfaithful
  cases hfaithful.of_append.1 with
  | keyword hread => exact ne_nil_of_read_eq_atKeyword hread

/-! ## Items -/

theorem formed_atRule {name prelude : List Char} (hname : name ≠ []) {body : Option (List Spec)}
    (hbody : ∀ children, body = some children → ∀ s ∈ children, s.Formed) :
    (Spec.atRule (String.ofList name) (String.ofList (trim prelude)) body).Formed := by
  refine .atRule (fun hempty => hname (String.ofList_eq_empty_iff.mp hempty)) ?_ ?_ ?_
  · intro text htext
    split at htext
    · cases htext
    · next hne =>
      cases htext
      exact ⟨hne, isTrimmed_ofList_trim prelude⟩
  · cases body with
    | none => exact fun hne => absurd rfl hne
    | some children => exact fun _ => rfl
  · cases body with
    | none => exact fun s hs => absurd hs List.not_mem_nil
    | some children => exact hbody children rfl

/-- An item that is made of a head and a body is formed. -/
theorem formed_of_ofHead {head : List Piece} {body : Option (List Spec)} {spec : Spec}
    (hhead : Named head) (hbody : ∀ children, body = some children → ∀ s ∈ children, s.Formed)
    (h : ofHead head body = .ok (some spec)) : spec.Formed := by
  unfold ofHead at h
  split at h
  · next name text rest hkeyword =>
    cases h
    have hmem : .keyword name text ∈ head := by
      have hfirst : .keyword name text ∈ headPieces head := by
        rw [hkeyword]
        exact List.mem_cons_self ..
      exact (List.dropWhile_sublist _).subset (List.mem_reverse.mp hfirst)
    exact formed_atRule (hhead name text hmem) hbody
  · dsimp only at h
    split at h
    · next children =>
      cases h
      exact .rule (isTrimmed_ofList_trim _) (hbody children rfl)
    · split at h
      · cases h
      · split at h
        · next name value hsplit =>
          cases h
          refine .declaration (isTrimmed_ofList_trim name) ?_ (isTrimmed_ofList_trim value)
          rw [String.toList_ofList]
          exact fun hcolon => notMem_of_splitAt?_eq_some hsplit (mem_of_mem_trim hcolon)
        · cases h

namespace Item.Assembly

variable {a b : Assembly} {p : Piece} {ps : List Piece} {specs : List Spec}

/-- All items that are finished are formed, and all keywords in heads have names. -/
structure Formed (a : Assembly) : Prop where
  items : ∀ s ∈ a.items, s.Formed
  head : Named a.head
  levels : ∀ level ∈ a.levels, (∀ s ∈ level.items, s.Formed) ∧ Named level.head

theorem named_nil : Named [] := fun _ _ hmem => absurd hmem List.not_mem_nil

/-- The items with one more, if there is one. -/
theorem Formed.statement (ha : a.Formed) {item : Option Spec}
    (hitem : ofHead a.head none = .ok item) : ∀ s ∈ item.toList ++ a.items, s.Formed := by
  intro s hs
  rcases List.mem_append.mp hs with hs | hs
  · obtain rfl := Option.mem_toList.mp hs
    exact formed_of_ofHead ha.head (by simp) hitem
  · exact ha.items s hs

/-- A block that is closed makes an item of its items. -/
theorem Formed.block (ha : a.Formed) {item : Option Spec} {spec : Spec} {level : Level}
    {levels : List Level} (hlevels : a.levels = level :: levels)
    (hitem : ofHead a.head none = .ok item)
    (hspec : ofHead level.head (some (item.toList ++ a.items).reverse) = .ok (some spec)) :
    ∀ s ∈ spec :: level.items, s.Formed := by
  obtain ⟨hitems, hhead⟩ := ha.levels level (by rw [hlevels]; exact List.mem_cons_self ..)
  intro s hs
  rcases List.mem_cons.mp hs with rfl | hs
  · refine formed_of_ofHead hhead ?_ hspec
    rintro _ ⟨rfl⟩ s hs
    exact ha.statement hitem s (List.mem_reverse.mp hs)
  · exact hitems s hs

/-- Every step keeps the form. -/
theorem Formed.moves (ha : a.Formed) (hp : Named [p]) (h : Moves a p b) : b.Formed := by
  have hlevels (level : Level) (levels : List Level) (he : a.levels = level :: levels) :
      ∀ l ∈ levels, (∀ s ∈ l.items, s.Formed) ∧ Named l.head :=
    fun l hl => ha.levels l (by rw [he]; exact List.mem_cons_of_mem _ hl)
  cases h with
  | skip => exact ⟨ha.items, ha.head, ha.levels⟩
  | push =>
    refine ⟨ha.items, fun name text hmem => ?_, ha.levels⟩
    rcases List.mem_cons.mp hmem with rfl | hmem
    · exact hp name text (List.mem_cons_self ..)
    · exact ha.head name text hmem
  | statement hitem => exact ⟨ha.statement hitem, named_nil, ha.levels⟩
  | openBlock =>
    refine ⟨fun s hs => absurd hs List.not_mem_nil, named_nil, fun level hlevel => ?_⟩
    rcases List.mem_cons.mp hlevel with rfl | hlevel
    · exact ⟨ha.items, ha.head⟩
    · exact ha.levels level hlevel
  | closeBlock he hitem hspec => exact ⟨ha.block he hitem hspec, named_nil, hlevels _ _ he⟩

theorem formed_of_run (hps : Named ps) (h : empty.run ps = .ok a) : a.Formed := by
  have hempty : Named [] → empty.Formed := fun _ =>
    ⟨fun s hs => absurd hs List.not_mem_nil, named_nil, fun l hl => absurd hl List.not_mem_nil⟩
  refine run_induction (P := fun ps a => Named ps → a.Formed) ?_ hempty h hps
  intro ps a p b ih hstep hnamed
  have ha := ih fun name text hmem => hnamed name text (List.mem_append_left _ hmem)
  exact ha.moves (fun name text hmem => hnamed name text (List.mem_append_right _ hmem))
    (moves_of_step hstep)

/-- What is closed at the end of the text is formed as well. -/
theorem formed_of_close (ha : a.Formed) (h : a.close a.levels = .ok specs) :
    ∀ s ∈ specs, s.Formed := by
  generalize hlevels : a.levels = levels at h
  induction levels generalizing a with
  | nil =>
    cases hitem : ofHead a.head none with
    | error cause =>
      rw [close, endStatement_of_error hitem] at h
      cases h
    | ok item =>
      rw [close, endStatement_of_ok hitem] at h
      cases h
      exact fun s hs => ha.statement hitem s (List.mem_reverse.mp hs)
  | cons level levels ih =>
    cases hitem : ofHead a.head none with
    | error cause =>
      rw [close, endStatement_of_error hitem] at h
      cases h
    | ok item =>
      obtain ⟨spec, hspec, hclose⟩ := close_cons hitem level levels
      rw [hclose] at h
      refine ih ⟨ha.block hlevels hitem hspec, named_nil, fun l hl => ?_⟩ rfl h
      exact ha.levels l (by rw [hlevels]; exact List.mem_cons_of_mem _ hl)

end Item.Assembly

/-- Whatever is read from a text is formed, at every depth. -/
theorem formed_of_parse {text : String} {specs : List Spec} (h : parse text = .ok specs) :
    ∀ s ∈ specs, s.Formed := by
  unfold parse at h
  split at h
  · next hassemble =>
    cases h
    unfold assemble at hassemble
    cases hrun : Assembly.empty.run (pieces text.toList) with
    | error stop =>
      rw [hrun] at hassemble
      cases hassemble
    | ok a =>
      rw [hrun] at hassemble
      exact Assembly.formed_of_close (Assembly.formed_of_run (named_pieces _) hrun) hassemble
  · cases h

/-- A text with a keyword that has an escape, with blanks that do not separate tokens at the ends of
a prelude, a name and a value, with a rule without a prelude, and with blocks that are not
closed. -/
def ragged : String :=
  "@m\\65 dia (x)\u00a0\x7b a:hover\x7b b\u2003:\u00a0c:d \x7d ;; @-\\31; \x7b \u3000e: \x7b"

/-- What is read from it. -/
def raggedSpecs : List Spec :=
  [.atRule "media" "(x)" (some [
    .rule "a:hover" [.declaration "b" "c:d"],
    .atRule "-1" "" none,
    .rule "" [.rule "e:" []]])]

/-- It is parsed, and what is read is formed. -/
theorem formed_of_parse_ragged : parse ragged = .ok raggedSpecs ∧ ∀ s ∈ raggedSpecs, s.Formed := by
  have hparse : parse ragged = .ok raggedSpecs := rfl
  exact ⟨hparse, formed_of_parse hparse⟩

end Css

end StyleTree
