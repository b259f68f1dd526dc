import StyleTree.Css.Parse
import StyleTree.Proofs.Css.Assembly
import StyleTree.Proofs.Css.Closed

/-!
# What the reader keeps of a text

The reader decides where preludes, names and values begin and end, and keeps them as they stand.  So
the descriptions that it makes, read in document order, lie in the text one after the other, and
what they do not take up is blanks, comments, semicolons, braces and colons.

* `Spec.parts`: what a description has from the text, in document order.  The name of an at-rule is
  decoded, so it lies in the text as a keyword; everything else lies in it as it is.
* `Laid parts text`: the text is made of the parts in their order, with nothing but filler between
  them.
* `allFaithful_pieces`: blank pieces and keywords are what they seem to be, given what follows them.
* `exists_laid`: what is read from some point on is laid out in the text from that point on.
* `laid_of_parse`: a text that is parsed is laid out in the parts of its items.
-/

namespace StyleTree

/-- A part of a text that a description keeps. -/
inductive Part where
  /-- The name that a keyword spells. -/
  | keyword (name : String)
  /-- A slice of the text. -/
  | slice (text : String)
deriving DecidableEq, Repr

/-- What a node of a kind has its name from: an at-rule from a keyword, a declaration from the text
itself. -/
def Kind.nameParts : Kind → String → List Part
  | .atRule, name => [.keyword name]
  | .declaration, name => [.slice name]
  | .root, _ | .rule, _ => []

namespace Spec

mutual

/-- The parts that a description keeps, in document order: its name, its prelude or value if it has
one, and those of its children. -/
def parts : Spec → List Part
  | ⟨kind, name, value, _, children⟩ =>
    name.toList.flatMap kind.nameParts ++ value.toList.map .slice ++ partsAll children

/-- The parts of several descriptions. -/
def partsAll : List Spec → List Part
  | [] => []
  | s :: ss => parts s ++ partsAll ss

end

theorem partsAll_append (ss ss' : List Spec) :
    partsAll (ss ++ ss') = partsAll ss ++ partsAll ss' := by
  induction ss with
  | nil => rfl
  | cons s ss ih => rw [List.cons_append, partsAll, partsAll, ih, List.append_assoc]

end Spec

namespace Css

open StyleTree.Text Item Spec

/-! ## Layouts -/

/-- What stands after the opening mark of a comment: everything up to the first closing mark, or up
to the end of the text if there is none. -/
def IsComment (body rest : List Char) : Prop :=
  (∃ inner, body = inner ++ ['*', '/'] ∧ ¬ ['*', '/'] <:+: inner ++ ['*']) ∨
    rest = [] ∧ ¬ ['*', '/'] <:+: body

/-- A text is made of parts in their order, each a slice of the text or a keyword in it.  Before,
between and after them there are only blanks, semicolons, braces, colons and comments. -/
inductive Laid : List Part → List Char → Prop
  | nil : Laid [] []
  | blank {parts : List Part} {c : Char} {s : List Char} (hc : isBlank c = true)
      (h : Laid parts s) : Laid parts (c :: s)
  | sign {parts : List Part} {c : Char} {s : List Char} (hc : c ∈ [';', '\x7b', '\x7d', ':'])
      (h : Laid parts s) : Laid parts (c :: s)
  | comment {parts : List Part} {body s : List Char} (hbody : IsComment body s) (h : Laid parts s) :
      Laid parts ('/' :: '*' :: (body ++ s))
  | keyword {parts : List Part} {name lexeme s : List Char}
      (hread : Token.read '@' (lexeme ++ s) = (.atKeyword name, lexeme.length)) (h : Laid parts s) :
      Laid (.keyword (String.ofList name) :: parts) ('@' :: (lexeme ++ s))
  | slice {parts : List Part} (text : String) {s : List Char} (h : Laid parts s) :
      Laid (.slice text :: parts) (text.toList ++ s)

section Laid

variable {parts : List Part} {l s : List Char}

theorem Laid.blanks (hl : ∀ c ∈ l, isBlank c = true) (h : Laid parts s) : Laid parts (l ++ s) := by
  induction l with
  | nil => exact h
  | cons c l ih =>
    exact .blank (hl c (List.mem_cons_self ..)) (ih fun d hd => hl d (List.mem_cons_of_mem _ hd))

/-- A trimmed text is a slice of the text with its blanks. -/
theorem Laid.trimmed (l : List Char) (h : Laid parts s) :
    Laid (.slice (String.ofList (trim l)) :: parts) (l ++ s) := by
  obtain ⟨before, after, hl, hbefore, hafter⟩ := exists_trim l
  have hslice := Laid.slice (String.ofList (trim l)) (h.blanks hafter)
  rw [String.toList_ofList] at hslice
  have hall := hslice.blanks hbefore
  rwa [← List.append_assoc, ← List.append_assoc, ← hl] at hall

/-- A text of blanks is no part. -/
theorem Laid.empty (hl : trim l = []) (h : Laid parts s) : Laid parts (l ++ s) := by
  obtain ⟨before, after, hsplit, hbefore, hafter⟩ := exists_trim l
  rw [hl, List.append_nil] at hsplit
  rw [hsplit, List.append_assoc]
  exact (h.blanks hafter).blanks hbefore

end Laid

/-! ## Blank pieces and keywords -/

/-- The text that a comment takes up. -/
theorem isComment_take (s : List Char) :
    IsComment (s.take (commentLength s)) (s.drop (commentLength s)) := by
  induction s with
  | nil => exact Or.inr ⟨rfl, by decide⟩
  | cons c s ih =>
    rw [commentLength_cons]
    split
    · next hmark =>
      obtain ⟨rfl, hhead⟩ := hmark
      obtain ⟨r, rfl⟩ := List.head?_eq_some_iff.mp hhead
      exact Or.inl ⟨[], rfl, by decide⟩
    · next hmark =>
      -- a closing mark that begins with this character would have ended the comment here
      have hstart : ∀ {x : List Char}, x <+: s → ¬ ['*', '/'] <:+: x →
          ¬ ['*', '/'] <:+: c :: x := by
        intro x hx hnot hinside
        rcases List.infix_cons_iff.mp hinside with hstarts | hinside
        · obtain ⟨rfl, hslash⟩ := List.cons_prefix_cons.mp hstarts
          refine hmark ⟨rfl, ?_⟩
          obtain ⟨r, hr⟩ := hslash.trans hx
          rw [← hr]
          rfl
        · exact hnot hinside
      rw [List.take_succ_cons, List.drop_succ_cons]
      rcases ih with ⟨inner, hbody, hnot⟩ | ⟨hrest, hnot⟩
      · refine Or.inl ⟨c :: inner, by rw [hbody, List.cons_append], hstart ?_ hnot⟩
        have hstarts : inner ++ ['*'] <+: s.take (commentLength s) := by
          rw [hbody]
          exact ⟨['/'], by simp⟩
        exact hstarts.trans (List.take_prefix _ _)
      · exact Or.inr ⟨hrest, hstart (List.take_prefix _ _) hnot⟩

theorem nameLength_le_length (k : Nat) (s : List Char) : nameLength k s ≤ s.length := by
  induction s generalizing k with
  | nil => cases k <;> exact Nat.le_refl _
  | cons c s ih =>
    cases k with
    | succ k => exact Nat.succ_le_succ (ih k)
    | zero =>
      rw [nameLength]
      split
      · exact Nat.succ_le_succ (ih 0)
      · split
        · exact Nat.succ_le_succ (ih _)
        · exact Nat.zero_le _

/-- A name is a token without further meaning, or it opens a bracket. -/
theorem kind_readName (s : List Char) :
    (Token.readName s).1 = .plain ∨ (Token.readName s).1 = .opening .round := by
  unfold Token.readName
  dsimp only
  split
  · split
    · split
      · exact Or.inl rfl
      · exact Or.inr rfl
    · exact Or.inr rfl
  · exact Or.inl rfl

/-- A token is a run of separators, a comment or a keyword, or it is neither blank nor a keyword. -/
theorem read_cases (c : Char) (s : List Char) :
    isSeparator c = true ∧ Token.read c s = (.blank, (s.takeWhile isSeparator).length) ∨
    (c = '/' ∧ ∃ r, s = '*' :: r ∧ Token.read c s = (.blank, commentLength r + 1)) ∨
    (c = '@' ∧ ∃ name, Token.read c s = (.atKeyword name, nameLength 0 s)) ∨
    (Token.read c s).1 ≠ .blank ∧ ∀ name, (Token.read c s).1 ≠ .atKeyword name := by
  unfold Token.read
  by_cases hsep : isSeparator c = true
  · exact .inl ⟨hsep, by rw [if_pos hsep]⟩
  rw [if_neg hsep]
  refine .inr ?_
  split
  -- brackets, the semicolon and strings
  · exact .inr (.inr ⟨nofun, nofun⟩)
  · exact .inr (.inr ⟨nofun, nofun⟩)
  · exact .inr (.inr ⟨nofun, nofun⟩)
  · exact .inr (.inr ⟨nofun, nofun⟩)
  · exact .inr (.inr ⟨nofun, nofun⟩)
  · exact .inr (.inr ⟨nofun, nofun⟩)
  · exact .inr (.inr ⟨nofun, nofun⟩)
  · exact .inr (.inr ⟨nofun, nofun⟩)
  · exact .inr (.inr ⟨nofun, nofun⟩)
  · split
    · exact .inl ⟨rfl, _, rfl, rfl⟩
    · exact .inr (.inr ⟨nofun, nofun⟩)
  · split <;> exact .inr (.inr ⟨nofun, nofun⟩)
  · split
    · exact .inr (.inl ⟨rfl, _, rfl⟩)
    · exact .inr (.inr ⟨nofun, nofun⟩)
  · split <;> exact .inr (.inr ⟨nofun, nofun⟩)
  -- a number, a name or any other character
  · refine .inr (.inr ?_)
    split
    · exact ⟨nofun, nofun⟩
    · split
      · exact ⟨nofun, nofun⟩
      · split
        · dsimp only
          rcases kind_readName (c :: s) with hkind | hkind <;> rw [hkind] <;> exact ⟨nofun, nofun⟩
        · exact ⟨nofun, nofun⟩

/-- What a piece tells about its text, given the text after it. -/
inductive Piece.Faithful : Piece → List Char → Prop
  | separators {l s : List Char} (hl : ∀ c ∈ l, isSeparator c = true) : Faithful (.blank l) s
  | comment {body s : List Char} (hbody : IsComment body s) :
      Faithful (.blank ('/' :: '*' :: body)) s
  | keyword {name lexeme s : List Char}
      (hread : Token.read '@' (lexeme ++ s) = (.atKeyword name, lexeme.length)) :
      Faithful (.keyword name ('@' :: lexeme)) s
  | chunk (l s : List Char) : Faithful (.chunk l) s
  | semicolon (s : List Char) : Faithful .semicolon s
  | openBlock (s : List Char) : Faithful .openBlock s
  | closeBlock (s : List Char) : Faithful .closeBlock s

/-- Every piece is faithful where it stands. -/
def AllFaithful : List Piece → Prop
  | [] => True
  | p :: ps => p.Faithful (textOf ps) ∧ AllFaithful ps

theorem AllFaithful.of_append {ps qs : List Piece} (h : AllFaithful (ps ++ qs)) :
    AllFaithful qs := by
  induction ps with
  | nil => exact h
  | cons p ps ih => exact ih h.2

/-- A blank token makes a faithful piece. -/
theorem faithful_blank {c : Char} {s : List Char} (h : (Token.read c s).1 = .blank) :
    Piece.Faithful (.blank (c :: s.take (Token.read c s).2)) (s.drop (Token.read c s).2) := by
  rcases read_cases c s with ⟨hc, hread⟩ | ⟨rfl, r, rfl, hread⟩ | ⟨-, name, hread⟩ | ⟨hnot, -⟩
  · rw [hread]
    refine .separators fun x hx => ?_
    rcases List.mem_cons.mp hx with rfl | hx
    · exact hc
    · rw [← List.prefix_iff_eq_take.mp (List.takeWhile_prefix _)] at hx
      exact List.mem_takeWhile_imp hx
  · rw [hread, List.take_succ_cons, List.drop_succ_cons]
    exact .comment (isComment_take r)
  · rw [hread] at h
    cases h
  · exact absurd h hnot

/-- A keyword token makes a faithful piece. -/
theorem faithful_keyword {c : Char} {s name : List Char}
    (h : (Token.read c s).1 = .atKeyword name) :
    Piece.Faithful (.keyword name (c :: s.take (Token.read c s).2))
      (s.drop (Token.read c s).2) := by
  rcases read_cases c s with ⟨-, hread⟩ | ⟨-, r, -, hread⟩ | ⟨rfl, name', hread⟩ | ⟨-, hnot⟩
  · rw [hread] at h
    cases h
  · rw [hread] at h
    cases h
  · rw [hread] at h ⊢
    cases h
    refine .keyword ?_
    rw [List.take_append_drop, hread, List.length_take, Nat.min_eq_left (nameLength_le_length 0 s)]
  · exact absurd h (hnot name)

/-- Grouping makes faithful pieces of the tokens of a text, whatever is held back before them. -/
theorem allFaithful_group (stack : List Bracket) (held : List (List Char)) (w : List Char) :
    AllFaithful (Piece.group stack held (tokens w)) := by
  induction hlen : w.length using Nat.strong_induction_on generalizing stack held w with
  | _ m ih =>
    cases w with
    | nil =>
      cases stack with
      | nil => trivial
      | cons b bs => exact ⟨.chunk _ _, trivial⟩
    | cons c s =>
      have htail : ∀ stack held,
          AllFaithful (Piece.group stack held (tokens (s.drop (Token.read c s).2))) := by
        intro stack held
        rw [List.length_cons] at hlen
        exact ih _ (by rw [List.length_drop]; omega) stack held _ rfl
      have hrest : textOf (Piece.group [] [] (tokens (s.drop (Token.read c s).2))) =
          s.drop (Token.read c s).2 := textOf_pieces _
      rw [tokens_cons]
      cases stack with
      | nil =>
        cases hkind : (Token.read c s).1 with
        | blank =>
          refine ⟨?_, htail [] []⟩
          rw [hrest]
          exact faithful_blank hkind
        | atKeyword name =>
          refine ⟨?_, htail [] []⟩
          rw [hrest]
          exact faithful_keyword hkind
        | semicolon => exact ⟨.semicolon _, htail [] []⟩
        | opening b =>
          cases b with
          | round => exact htail _ _
          | square => exact htail _ _
          | curly => exact ⟨.openBlock _, htail [] []⟩
        | closing b =>
          cases b with
          | round => exact ⟨.chunk _ _, htail [] []⟩
          | square => exact ⟨.chunk _ _, htail [] []⟩
          | curly => exact ⟨.closeBlock _, htail [] []⟩
        | plain => exact ⟨.chunk _ _, htail [] []⟩
      | cons b bs =>
        rw [Piece.group]
        dsimp only
        split
        · exact ⟨.chunk _ _, htail [] []⟩
        · exact htail _ _

theorem allFaithful_pieces (w : List Char) : AllFaithful (pieces w) :=
  allFaithful_group [] [] w

/-! ## Heads -/

section Heads

variable {parts : List Part} {head ps : List Piece}

/-- Blank pieces are filler. -/
theorem laid_blanks {blanks : List Piece} (hblanks : ∀ p ∈ blanks, p.isBlank = true)
    (hf : AllFaithful (blanks ++ ps)) (h : Laid parts (textOf ps)) :
    Laid parts (textOf (blanks ++ ps)) := by
  induction blanks with
  | nil => exact h
  | cons p blanks ih =>
    obtain ⟨hp, hrest⟩ := hf
    have hblank := hblanks p (List.mem_cons_self ..)
    have htail := ih (fun q hq => hblanks q (List.mem_cons_of_mem _ hq)) hrest
    cases hp with
    | separators hl => exact htail.blanks fun c hc => isBlank_of_isSeparator (hl c hc)
    | comment hbody => exact .comment hbody htail
    | keyword | chunk | semicolon | openBlock | closeBlock =>
      exact absurd hblank (by simp [Piece.isBlank])

/-- The part that a prelude is, unless it is empty. -/
def preludeParts (prelude : List Char) : List Part :=
  if prelude = [] then [] else [.slice (String.ofList prelude)]

theorem parts_atRule (name prelude : List Char) (body : Option (List Spec)) :
    (Spec.atRule (String.ofList name) (String.ofList prelude) body).parts =
      .keyword (String.ofList name) :: preludeParts prelude ++ partsAll (body.getD []) := by
  unfold Spec.atRule preludeParts
  rw [Spec.parts]
  by_cases h : prelude = []
  · rw [if_pos h, if_pos (by rw [h])]
    rfl
  · rw [if_neg h, if_neg fun hempty => h (String.ofList_eq_empty_iff.mp hempty)]
    rfl

/-- The parts of a head that a block follows. -/
def headParts (head : List Piece) : List Part :=
  match headPieces head with
  | .keyword name _ :: rest => .keyword (String.ofList name) :: preludeParts (trim (textOf rest))
  | pieces => [.slice (String.ofList (trim (textOf pieces)))]

/-- The item that a head makes of a block has the parts of the head and those of the block. -/
theorem parts_of_ofHead_block {children : List Spec} {spec : Spec}
    (h : ofHead head (some children) = .ok (some spec)) :
    spec.parts = headParts head ++ partsAll children := by
  unfold ofHead at h
  split at h
  · next name l rest hkeyword =>
    cases h
    have hparts : headParts head = .keyword (String.ofList name) ::
        preludeParts (trim (textOf rest)) := by
      rw [headParts, hkeyword]
    rw [hparts]
    exact parts_atRule _ _ _
  · next hnot =>
    cases h
    have hparts : headParts head = [.slice (String.ofList (trim (textOf (headPieces head))))] := by
      unfold headParts
      split
      · next hkeyword => exact absurd hkeyword (hnot _ _ _)
      · rfl
    rw [hparts, Spec.rule, Spec.parts]
    rfl

/-- A keyword and the prelude after it. -/
theorem laid_keyword {name l : List Char} {rest : List Piece}
    (hf : AllFaithful (.keyword name l :: rest ++ ps)) (h : Laid parts (textOf ps)) :
    Laid (.keyword (String.ofList name) :: preludeParts (trim (textOf rest)) ++ parts)
      (textOf (.keyword name l :: rest ++ ps)) := by
  have hprelude : Laid (preludeParts (trim (textOf rest)) ++ parts) (textOf (rest ++ ps)) := by
    rw [textOf_append, preludeParts]
    split
    · next hempty => exact h.empty hempty
    · exact h.trimmed _
  cases hf.1 with
  | keyword hread => exact .keyword hread hprelude

/-- The text of a head before a block is laid out in its parts. -/
theorem laid_head (hf : AllFaithful (head.reverse ++ ps)) (h : Laid parts (textOf ps)) :
    Laid (headParts head ++ parts) (textOf (head.reverse ++ ps)) := by
  obtain ⟨blanks, hhead, hblanks⟩ := exists_blanks_of_headPieces head
  rw [hhead, List.append_assoc] at hf ⊢
  have htail := laid_blanks hblanks hf.of_append h
  unfold headParts
  split
  · next hkeyword =>
    rw [hkeyword] at hf ⊢
    exact laid_keyword hf htail
  · rw [textOf_append]
    exact htail.trimmed _

/-- The text of a statement is laid out in the parts of what becomes of it. -/
theorem laid_statement {item : Option Spec} (hitem : ofHead head none = .ok item)
    (hf : AllFaithful (head.reverse ++ ps)) (h : Laid parts (textOf ps)) :
    Laid (partsAll item.toList ++ parts) (textOf (head.reverse ++ ps)) := by
  obtain ⟨blanks, hhead, hblanks⟩ := exists_blanks_of_headPieces head
  rw [hhead, List.append_assoc] at hf ⊢
  have htail := laid_blanks hblanks hf.of_append h
  unfold ofHead at hitem
  split at hitem
  · next hkeyword =>
    cases hitem
    rw [hkeyword] at hf ⊢
    rw [Option.toList_some, partsAll, parts_atRule]
    simpa [partsAll] using laid_keyword hf htail
  · rw [textOf_append]
    dsimp only at hitem
    split at hitem
    · next hempty =>
      cases hitem
      exact htail.empty (List.isEmpty_iff.mp hempty)
    · split at hitem
      · next name value hsplit =>
        cases hitem
        -- the colon is the only sign that stands inside an item
        obtain ⟨before, after, hsource, hbefore, hafter⟩ := exists_trim (textOf (headPieces head))
        have hvalue := (htail.blanks hafter).trimmed value
        have hname := (Laid.sign (c := ':') (by simp) hvalue).trimmed name
        have hall := hname.blanks hbefore
        rw [hsource, append_of_splitAt?_eq_some hsplit]
        rw [Option.toList_some, Spec.declaration, partsAll, Spec.parts]
        simpa [partsAll, Kind.nameParts] using hall
      · cases hitem

end Heads

/-! ## Whole texts -/

namespace Item

/-- The parts of what stands before a block, in the enclosing block and in its own head. -/
def Level.parts (level : Level) : List Part :=
  partsAll level.items.reverse ++ headParts level.head

/-- The parts of what stands before the innermost block, the innermost level first. -/
def levelParts : List Level → List Part
  | [] => []
  | level :: levels => levelParts levels ++ level.parts

namespace Assembly

/-- The parts of everything that is read, but for the head of the item that is being read. -/
def parts (a : Assembly) : List Part :=
  levelParts a.levels ++ partsAll a.items.reverse

/-- One more item. -/
theorem partsAll_reverse_append (item : Option Spec) (items : List Spec) :
    partsAll (item.toList ++ items).reverse = partsAll items.reverse ++ partsAll item.toList := by
  rw [List.reverse_append, partsAll_append]
  cases item <;> rfl

/-- A block that is closed makes one item of its head and its items, which keeps their parts. -/
theorem partsAll_block {level : Level} {items : List Spec} {spec : Spec}
    (hspec : ofHead level.head (some items.reverse) = .ok (some spec)) :
    partsAll (spec :: level.items).reverse = level.parts ++ partsAll items.reverse := by
  rw [List.reverse_cons, partsAll_append, partsAll, partsAll,
    parts_of_ofHead_block hspec, Level.parts, List.append_nil, List.append_assoc]

/-- Closing what is open adds the parts of the last statement. -/
theorem partsAll_close {a : Assembly} {specs : List Spec} {item : Option Spec}
    (hitem : ofHead a.head none = .ok item) (h : a.close a.levels = .ok specs) :
    partsAll specs = a.parts ++ partsAll item.toList := by
  unfold parts
  generalize hlevels : a.levels = levels at h
  induction levels generalizing a item with
  | nil =>
    rw [close, endStatement_of_ok hitem] at h
    cases h
    exact partsAll_reverse_append item a.items
  | cons level levels ih =>
    obtain ⟨spec, hspec, hclose⟩ := close_cons hitem level levels
    rw [hclose] at h
    have hnone : ofHead [] none = .ok none := rfl
    rw [ih hnone rfl h, partsAll_block hspec, partsAll_reverse_append, levelParts]
    simp [partsAll]

/-- What is read from some point on is laid out in the text from the beginning of the current item
on. -/
theorem exists_laid {ps : List Piece} {a b : Assembly} {specs : List Spec} (hrun : a.run ps = .ok b)
    (hclose : b.close b.levels = .ok specs) (hf : AllFaithful (a.head.reverse ++ ps)) :
    ∃ later, partsAll specs = a.parts ++ later ∧ Laid later (textOf (a.head.reverse ++ ps)) := by
  induction ps generalizing a with
  | nil =>
    obtain rfl : a = b := Except.ok.inj hrun
    cases hitem : ofHead a.head none with
    | error cause =>
      obtain ⟨stop, hstop⟩ : ∃ stop, a.close a.levels = .error stop := by
        cases a.levels <;> exact ⟨_, by rw [close, endStatement_of_error hitem]; rfl⟩
      rw [hstop] at hclose
      cases hclose
    | ok item =>
      have hlaid := laid_statement hitem hf Laid.nil
      rw [List.append_nil] at hlaid
      exact ⟨_, partsAll_close hitem hclose, hlaid⟩
  | cons p ps ih =>
    obtain ⟨c, hstep, hrun⟩ := run_cons_eq_ok hrun
    have hfaithful := hf.of_append.2
    cases moves_of_step hstep with
    | @skip s hhead =>
      have hblank : ∀ q ∈ [Piece.blank s], q.isBlank = true := by simp [Piece.isBlank]
      rw [hhead] at hf ⊢
      obtain ⟨later, hparts, hlater⟩ := ih hrun (by rwa [skip, hhead])
      rw [skip, hhead] at hlater
      refine ⟨later, hparts, ?_⟩
      rw [List.reverse_nil, List.nil_append, ← List.singleton_append] at hf ⊢
      exact laid_blanks hblank hf hlater
    | push hp hfirst =>
      -- the piece is still to be laid out, but as a part of the head now
      have hsame : (a.push p).head.reverse ++ ps = a.head.reverse ++ p :: ps := by
        rw [push, List.reverse_cons, List.append_assoc, List.singleton_append]
      rw [← hsame] at hf ⊢
      exact ih hrun hf
    | @statement item hitem =>
      obtain ⟨later, hparts, hlater⟩ := ih hrun hfaithful
      refine ⟨partsAll item.toList ++ later, ?_, laid_statement hitem hf (.sign (by simp) hlater)⟩
      rw [hparts, parts, parts]
      show levelParts a.levels ++ partsAll (item.toList ++ a.items).reverse ++ later = _
      rw [partsAll_reverse_append]
      simp
    | openBlock =>
      obtain ⟨later, hparts, hlater⟩ := ih hrun hfaithful
      refine ⟨headParts a.head ++ later, ?_, laid_head hf (.sign (by simp) hlater)⟩
      rw [hparts, parts, parts]
      show levelParts a.levels ++ (partsAll a.items.reverse ++ headParts a.head) ++ [] ++ later = _
      simp
    | @closeBlock level levels item spec hlevels hitem hspec =>
      obtain ⟨later, hparts, hlater⟩ := ih hrun hfaithful
      refine ⟨partsAll item.toList ++ later, ?_, laid_statement hitem hf (.sign (by simp) hlater)⟩
      rw [hparts, parts, parts, hlevels]
      show levelParts levels ++ partsAll (spec :: level.items).reverse ++ later = _
      rw [partsAll_block hspec, partsAll_reverse_append, levelParts]
      simp

end Assembly

end Item

/-- A text that is parsed is laid out in what its items keep of it: the preludes of rules and
at-rules and the names and values of declarations are slices of the text, in document order and one
after the other, and what is before, between and after them consists of blanks, comments,
semicolons, braces, colons and the keywords that the names of the at-rules are read from. -/
theorem laid_of_parse {text : String} {specs : List Spec} (h : parse text = .ok specs) :
    Laid (partsAll specs) text.toList := by
  unfold parse at h
  split at h
  · next hassemble =>
    cases h
    unfold assemble at hassemble
    cases hrun : Assembly.empty.run (pieces text.toList) with
    | error stop =>
      rw [hrun] at hassemble
      cases hassemble
    | ok a =>
      rw [hrun] at hassemble
      obtain ⟨later, hparts, hlater⟩ :=
        Assembly.exists_laid hrun hassemble (allFaithful_pieces text.toList)
      have htext : textOf (Assembly.empty.head.reverse ++ pieces text.toList) = text.toList :=
        textOf_pieces text.toList
      rw [htext] at hlater
      rw [hparts]
      exact hlater
  · cases h

/-- A text with comments before an item and inside a prelude, with a keyword that has an escape,
with a semicolon in a string, and with blocks that are not closed. -/
def scattered : String :=
  "/* a; */ @m\\65 dia (x: 1) \x7b a:hover /* b */ p \x7b c : \";\" ; d: e f \x7d @x; g \x7b h:i"

/-- What is read from it. -/
def scatteredSpecs : List Spec :=
  [.atRule "media" "(x: 1)" (some [
    .rule "a:hover /* b */ p" [.declaration "c" "\";\"", .declaration "d" "e f"],
    .atRule "x" "" none,
    .rule "g" [.declaration "h" "i"]])]

/-- It is parsed, and laid out in eleven parts. -/
theorem laid_of_parse_scattered :
    parse scattered = .ok scatteredSpecs ∧
      Laid [.keyword "media", .slice "(x: 1)", .slice "a:hover /* b */ p", .slice "c",
        .slice "\";\"",
        .slice "d", .slice "e f", .keyword "x", .slice "g", .slice "h", .slice "i"]
        scattered.toList := by
  have hparse : parse scattered = .ok scatteredSpecs := rfl
  exact ⟨hparse, laid_of_parse hparse⟩

end Css

end StyleTree
