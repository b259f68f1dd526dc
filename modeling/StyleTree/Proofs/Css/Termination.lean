import StyleTree.Proofs.Css.Descent
import StyleTree.Proofs.Css.Reads

/-!
# Reading always ends

The reader by descent needs no more steps than the text has characters, and one for the end.  That
it does not run out of them is proved together with what it computes: the items, or the fault, that
assembling the pieces gives.

The two readers hold the text differently.  The reader by descent goes from place to place, and the
calls that are not finished hold the heads of the open blocks; the assembly goes from piece to
piece, and holds the heads on a stack.  What they share is what is still to come, so a statement
about a part of the reader compares two ways to finish: from where the part began, and from where it
ended.

* `exists_chunk`: a bracket and all that it holds are one piece, and the text goes on where the
  bracket is closed.
* `yields_skipBlock`: the tokens inside a bracket can be passed over, and the bracket is closed at
  the same place before and after that.
* `Headed start head qs`, `endsHead_readHead`: the pieces of an item are divided into its head and
  what follows.
* `Assembly.finish`: the items of the document, from an assembly and the pieces that are left.
* `Assembly.Goes`, `Assembly.Fails`: reading on to a place adds items; reading on fails.
* `follows_items`: with enough steps the reader goes on as the assembly does, and fails as it does.
* `items_eq_parse`: the reader ends, whatever the text is, and what it gives is what parsing gives.
-/

namespace StyleTree.Css.Descent

open StyleTree.Text StyleTree.Action Item

/-! ## Places and pieces -/

theorem nest_append (b : Bracket) (bs st : List Bracket) (k : Token.Kind) :
    Piece.nest (b :: (bs ++ st)) k = Piece.nest (b :: bs) k ++ st := by
  cases k with
  | closing b' =>
    show (if some b = some b' then bs ++ st else b :: (bs ++ st)) =
      (if some b = some b' then bs else b :: bs) ++ st
    split <;> rfl
  | blank | atKeyword | semicolon | opening | plain => rfl

/-- The inner brackets are closed first. -/
theorem close_append (bs st : List Bracket) (s : List Char) :
    close (bs ++ st) s = close st (close bs s) := by
  induction hlen : s.length using Nat.strong_induction_on generalizing bs s with
  | _ m ih =>
    cases bs with
    | nil => rw [List.nil_append, close_nil_left]
    | cons b bs =>
      cases s with
      | nil => rw [close_nil_right, close_nil_right, close_nil_right]
      | cons c s =>
        rw [List.length_cons] at hlen
        rw [List.cons_append, close_cons, close_cons, nest_append]
        exact ih _ (by rw [List.length_drop]; omega) _ _ rfl

/-- Blanks close no bracket. -/
theorem close_skipBlanks (b : Bracket) (bs : List Bracket) (s : List Char) :
    close (b :: bs) (skipBlanks s) = close (b :: bs) s := by
  induction hlen : s.length using Nat.strong_induction_on generalizing s with
  | _ m ih =>
    cases s with
    | nil => rfl
    | cons c s =>
      rw [skipBlanks_cons]
      split
      · next hblank =>
        rw [List.length_cons] at hlen
        rw [close_cons, hblank]
        exact ih _ (by rw [List.length_drop]; omega) _ rfl
      · rfl

/-- A bracket and all that it holds are one piece, and the text goes on where the bracket is
closed. -/
theorem exists_chunk (b : Bracket) (bs : List Bracket) (held : List (List Char)) (s : List Char) :
    ∃ l, Piece.group (b :: bs) held (tokens s) = .chunk l :: pieces (close (b :: bs) s) := by
  induction hlen : s.length using Nat.strong_induction_on generalizing b bs held s with
  | _ m ih =>
    cases s with
    | nil => exact ⟨_, rfl⟩
    | cons c s =>
      rw [List.length_cons] at hlen
      rw [tokens_cons, close_cons, Piece.group]
      dsimp only
      split
      · next hnest =>
        rw [hnest, close_nil_left]
        exact ⟨_, rfl⟩
      · next b' bs' hnest =>
        rw [hnest]
        exact ih _ (by rw [List.length_drop]; omega) b' bs' _ _ rfl

/-- The first token of a text decides what the first piece is. -/
theorem pieces_cons (c : Char) (s : List Char) : pieces (c :: s) = Piece.group [] []
    (⟨(Token.read c s).1, c :: s.take (Token.read c s).2⟩ ::
      tokens (s.drop (Token.read c s).2)) := by
  rw [pieces, tokens_cons]

/-- What is skipped is blank pieces. -/
theorem exists_blanks (s : List Char) :
    ∃ blanks, pieces s = blanks ++ pieces (skipBlanks s) ∧ ∀ p ∈ blanks, p.isBlank = true := by
  induction hlen : s.length using Nat.strong_induction_on generalizing s with
  | _ m ih =>
    cases s with
    | nil => exact ⟨[], rfl, by simp⟩
    | cons c s =>
      rw [skipBlanks_cons]
      split
      · next hblank =>
        rw [List.length_cons] at hlen
        obtain ⟨blanks, hpieces, hall⟩ :=
          ih _ (by rw [List.length_drop]; omega) (s.drop (Token.read c s).2) rfl
        refine ⟨.blank (c :: s.take (Token.read c s).2) :: blanks, ?_,
          List.forall_mem_cons.mpr ⟨rfl, hall⟩⟩
        rw [pieces_cons, hblank, List.cons_append, ← hpieces]
        rfl
      · exact ⟨[], rfl, by simp⟩

/-- The tokens inside a bracket can be passed over up to its end, and the bracket is closed at the
same place after that. -/
theorem yields_skipBlock (b : Bracket) {n : Nat} {c : Cursor} (hlen : c.rest.length < n) :
    (skipBlock b n).Yields c
      (fun _ c' => atEnd (some b) c'.rest = true ∧ close [b] c'.rest = close [b] c.rest)
      fun _ _ => False := by
  induction n generalizing c with
  | zero => exact absurd hlen (Nat.not_lt_zero _)
  | succ n ih =>
    rw [skipBlock, yields_bind, yields_next]
    intro k r hnext
    have hshort := hnext.suffix.2
    rw [← close_skipBlanks b [] c.rest]
    cases hnext with
    | done hend => exact ⟨hend, rfl⟩
    | @token x s hs hend =>
      rw [hs, close_cons]
      have hmore (r : List Char) (hr : r <:+ s.drop (Token.read x s).2) (Q : List Char)
          (hQ : close [b] r = Q) :
          (skipBlock b n).Yields { c with rest := r }
            (fun _ c' => atEnd (some b) c'.rest = true ∧ close [b] c'.rest = Q)
            fun _ _ => False := by
        rw [← hQ]
        refine ih ?_
        have hlater := (hshort rfl).2
        have hle := hr.length_le
        show r.length < n
        omega
      cases hkind : (Token.read x s).1 with
      | opening b' =>
        rw [yields_bind, yields_rest, yields_bind, yields_moveTo]
        exact hmore _ (close_suffix _ _) _ (close_append [b'] [b] _).symm
      | closing b' =>
        refine hmore _ List.suffix_rfl _ ?_
        have hne : b ≠ b' := by
          rintro rfl
          rw [atEnd, hkind] at hend
          simp at hend
        rw [Piece.nest, List.head?_cons, if_neg (by simpa using hne)]
      | blank | atKeyword | semicolon | plain => exact hmore _ List.suffix_rfl _ rfl

/-! ## Heads -/

/-- The pieces from the beginning of an item on are its head and what follows the head. -/
structure Headed (start : List Char) (head qs : List Piece) : Prop where
  pieces_eq : pieces start = head ++ qs
  inert : ∀ p ∈ head, p.isInert = true
  first : ∀ p, head.head? = some p → p.isBlank = false

/-- The at-keyword that pieces begin with, and where it ends, if a text follows the pieces. -/
def keywordOf (s : List Char) : List Piece → Option (List Char × List Char)
  | .keyword name _ :: ps => some (name, textOf ps ++ s)
  | _ => none

/-- The head is made of the pieces, up to a place just after the last of them, and the last of them
is not blank. -/
structure Head.Spans (h : Head) (ps : List Piece) (s : List Char) : Prop where
  headed : Headed h.start ps (pieces s)
  last : ∀ p, ps.getLast? = some p → p.isBlank = false
  begins : ps = [] → skipBlanks s = s
  stop_eq : h.stop = s
  first_eq : h.first = ps.isEmpty
  keyword_eq : h.keyword = keywordOf s ps

/-- The head with one more piece, up to a place. -/
def Head.add (h : Head) (p : Piece) (s : List Char) : Head :=
  match p with
  | .keyword name _ => h.extendKeyword name s
  | _ => h.extend s

/-- What ends a head: a block, a semicolon, or the end of what is being read. -/
inductive HeadEnd (stop : Option Bracket) : List Piece → Bool → List Char → Prop
  | block (s : List Char) : HeadEnd stop (.openBlock :: pieces s) true s
  | semicolon (s : List Char) : HeadEnd stop (.semicolon :: pieces s) false s
  | done {s : List Char} (h : atEnd stop s = true) : HeadEnd stop (pieces s) false s

/-- A head that is read from the beginning of an item: what it is made of, what is made of it, and
what ends it. -/
def HeadRead (stop : Option Bracket) (start : List Char) (h : Head) (block : Bool) (s : List Char) :
    Prop :=
  h.start = start ∧ ∃ head qs, Headed start head qs ∧
    (∀ body, ofHead head.reverse body = h.item body) ∧ HeadEnd stop qs block s

/-- A head that runs into a closing brace where no block is open. -/
def HeadStray (text : List Char) (stop : Option Bracket) (start : List Char) (e : Fault) : Prop :=
  stop = none ∧ ∃ head s, Headed start head (.closeBlock :: pieces s) ∧
    e = faultAt text .strayBrace s

/-- An action reads a head to its end. -/
def EndsHead (text : List Char) (stop : Option Bracket) (start : List Char)
    (x : Action Cursor (Head × Bool)) (c : Cursor) : Prop :=
  x.Yields c (fun p c' => HeadRead stop start p.1 p.2 c'.rest)
    fun e _ => HeadStray text stop start e

section Heads

variable {h : Head} {ps blanks qs : List Piece} {p : Piece} {s r : List Char}

theorem Headed.length_eq {start : List Char} {head : List Piece} (hh : Headed start head qs) :
    start.length = (textOf head).length + (textOf qs).length := by
  rw [← List.length_append, ← textOf_append, ← hh.pieces_eq, textOf_pieces]

theorem isInert_of_isBlank (hp : p.isBlank = true) : p.isInert = true := by
  cases p with
  | blank => rfl
  | keyword | chunk | semicolon | openBlock | closeBlock => cases hp

/-- A text is the text of its first pieces, and the rest. -/
theorem text_eq (hs : pieces s = ps ++ pieces r) : s = textOf ps ++ r := by
  rw [← textOf_pieces s, hs, textOf_append, textOf_pieces]

theorem keywordOf_append (hps : ps ≠ []) (qs : List Piece) (s : List Char) :
    keywordOf s (ps ++ qs) = keywordOf (textOf qs ++ s) ps := by
  obtain ⟨p, ps, rfl⟩ := List.exists_cons_of_ne_nil hps
  cases p with
  | keyword name l =>
    rw [List.cons_append, keywordOf, keywordOf, textOf_append, List.append_assoc]
  | blank | chunk | semicolon | openBlock | closeBlock => rfl

/-- The blanks at the end of a head do not belong to it. -/
theorem headPieces_append_blanks (hlast : ∀ p, ps.getLast? = some p → p.isBlank = false)
    (hblanks : ∀ p ∈ blanks, p.isBlank = true) : headPieces (ps ++ blanks).reverse = ps := by
  have hdrop : ps.reverse.dropWhile Piece.isBlank = ps.reverse := by
    cases hrev : ps.reverse with
    | nil => rfl
    | cons q qs =>
      have hq := hlast q (by rw [← List.head?_reverse, hrev]; rfl)
      exact List.dropWhile_cons_of_neg (by simp [hq])
  unfold headPieces
  rw [List.reverse_append,
    List.dropWhile_append_of_pos fun p hp => hblanks p (List.mem_reverse.mp hp), hdrop,
    List.reverse_reverse]

theorem between_append (u s : List Char) : Head.between (u ++ s) s = u := by
  rw [Head.between, List.length_append, Nat.add_sub_cancel, List.take_left]

theorem Head.spans_begin (hs : skipBlanks s = s) : (Head.begin s).Spans [] s where
  headed := ⟨rfl, by simp, by simp⟩
  last := by simp
  begins := fun _ => hs
  stop_eq := rfl
  first_eq := rfl
  keyword_eq := rfl

/-- Blanks before an item are skipped before it begins. -/
theorem Head.Spans.blanks_eq_nil (hh : h.Spans ps s)
    (hs : pieces s = blanks ++ pieces (skipBlanks s)) (hps : ps = []) : blanks = [] := by
  rw [hh.begins hps] at hs
  exact List.self_eq_append_left.mp hs

/-- Blanks do not end a head. -/
theorem Head.Spans.headed_append (hh : h.Spans ps s)
    (hs : pieces s = blanks ++ pieces (skipBlanks s)) (hblanks : ∀ p ∈ blanks, p.isBlank = true) :
    Headed h.start (ps ++ blanks) (pieces (skipBlanks s)) where
  pieces_eq := by rw [hh.headed.pieces_eq, hs, List.append_assoc]
  inert := by
    intro p hp
    rcases List.mem_append.mp hp with hp | hp
    · exact hh.headed.inert p hp
    · exact isInert_of_isBlank (hblanks p hp)
  first := by
    intro p hp
    cases ps with
    | nil =>
      rw [hh.blanks_eq_nil hs rfl] at hp
      cases hp
    | cons q ps => exact hh.headed.first p hp

/-- The item that is made of the pieces is the one that is made of the text. -/
theorem Head.Spans.ofHead_eq (hh : h.Spans ps s) (hblanks : ∀ p ∈ blanks, p.isBlank = true)
    (body : Option (List Spec)) : ofHead (ps ++ blanks).reverse body = h.item body := by
  have hpieces := headPieces_append_blanks hh.last hblanks
  have htext := text_eq hh.headed.pieces_eq
  unfold Head.item
  rw [hh.keyword_eq, hh.stop_eq]
  unfold keywordOf
  split
  · next hkeyword =>
    split at hkeyword
    · cases hkeyword
      rw [ofHead, hpieces, between_append]
    · cases hkeyword
  · next hkeyword =>
    rw [ofHead_eq_itemOf, hpieces, htext, between_append]
    intro name l rest hps
    rw [← hpieces, hps] at hkeyword
    cases hkeyword

theorem Head.add_start (h : Head) (p : Piece) (s : List Char) : (h.add p s).start = h.start := by
  unfold Head.add
  split <;> rfl

/-- Only the first piece of a head can be its at-keyword. -/
theorem Head.Spans.keyword_add (hh : h.Spans ps s) (hs : pieces s = blanks ++ pieces (skipBlanks s))
    (hp : pieces (skipBlanks s) = p :: pieces r) :
    (h.add p r).keyword = keywordOf r (ps ++ (blanks ++ [p])) := by
  have hfirst := hh.first_eq
  by_cases hps : ps = []
  · have hold := hh.keyword_eq
    rw [hh.blanks_eq_nil hs hps]
    subst hps
    cases p with
    | keyword name l => exact if_pos hfirst
    | blank | chunk | semicolon | openBlock | closeBlock => exact hold
  · have hkeep : (h.add p r).keyword = h.keyword := by
      unfold Head.add
      split
      · exact if_neg (by simpa [hfirst] using hps)
      · rfl
    have htext : s = textOf (blanks ++ [p]) ++ r :=
      text_eq (by rw [hs, hp, List.append_assoc, List.singleton_append])
    rw [hkeep, hh.keyword_eq, keywordOf_append hps, ← htext]

/-- A piece that is not blank adds itself, and the blanks before it, to a head. -/
theorem Head.Spans.add (hh : h.Spans ps s) (hs : pieces s = blanks ++ pieces (skipBlanks s))
    (hblanks : ∀ p ∈ blanks, p.isBlank = true) (hp : pieces (skipBlanks s) = p :: pieces r)
    (hinert : p.isInert = true) (hblank : p.isBlank = false) :
    (h.add p r).Spans (ps ++ (blanks ++ [p])) r where
  headed := by
    have hheaded := hh.headed_append hs hblanks
    rw [h.add_start, ← List.append_assoc]
    refine ⟨?_, fun q hq => ?_, fun q hq => ?_⟩
    · rw [hheaded.pieces_eq, hp, List.append_assoc _ [p], List.singleton_append]
    · rcases List.mem_append.mp hq with hq | hq
      · exact hheaded.inert q hq
      · rwa [List.mem_singleton.mp hq]
    · cases ps with
      | nil =>
        rw [hh.blanks_eq_nil hs rfl] at hq
        cases hq
        exact hblank
      | cons p' ps => exact hh.headed.first q hq
  last := by
    intro q hq
    rw [← List.append_assoc, List.getLast?_concat] at hq
    cases hq
    exact hblank
  begins := fun hnil => absurd hnil (by simp)
  stop_eq := by
    unfold Head.add
    split <;> rfl
  first_eq := by
    unfold Head.add
    split <;> simp [Head.extend, Head.extendKeyword]
  keyword_eq := hh.keyword_add hs hp

theorem kind_ne_blank {c : Char} (hs : skipBlanks s = c :: r) : (Token.read c r).1 ≠ .blank := by
  intro hblank
  have hagain := skipBlanks_skipBlanks s
  rw [hs, skipBlanks_cons, if_pos hblank] at hagain
  have hle := (skipBlanks_suffix (r.drop (Token.read c r).2)).length_le
  rw [hagain, List.length_cons, List.length_drop] at hle
  omega

/-- A token ends a head as it should, if the rest of the head is read as it should be. -/
theorem endsHead_headStep {text : List Char} {stop : Option Bracket}
    (hstop : stop = none ∨ stop = some .curly) {n : Nat} {more : Head → Action Cursor (Head × Bool)}
    {head : List Piece} {x : Char} {t : List Char} (hheaded : Headed h.start head (pieces (x :: t)))
    (hitem : ∀ body, ofHead head.reverse body = h.item body) (hend : atEnd stop (x :: t) = false)
    (hblank : (Token.read x t).1 ≠ .blank) (hlen : (t.drop (Token.read x t).2).length < n)
    (hmore : ∀ p s marks, pieces (x :: t) = p :: pieces s → p.isInert = true → p.isBlank = false →
      s <:+ t.drop (Token.read x t).2 → EndsHead text stop h.start (more (h.add p s)) ⟨s, marks⟩)
    (marks : List Mark) :
    EndsHead text stop h.start (headStep text n more h (some (Token.read x t).1))
      ⟨t.drop (Token.read x t).2, marks⟩ := by
  have hpieces := pieces_cons x t
  -- parentheses and square brackets belong to the head, with all that they hold
  have hnested (b : Bracket) {held : List (List Char)}
      (hp : pieces (x :: t) = Piece.group [b] held (tokens (t.drop (Token.read x t).2))) :
      EndsHead text stop h.start
        (do nested text b h.start (skipBlock b n); more (h.extend (← rest)))
        ⟨t.drop (Token.read x t).2, marks⟩ := by
    obtain ⟨l, hl⟩ := exists_chunk b [] held (t.drop (Token.read x t).2)
    rw [EndsHead, yields_bind]
    refine yields_nested_of_atEnd ((yields_skipBlock b hlen).mono (fun _ c' hskip => ?_) fun _ _ =>
      False.elim)
    obtain ⟨hend', hc'⟩ := hskip
    refine ⟨hend', ?_⟩
    rw [yields_bind, yields_rest]
    dsimp only at hc' ⊢
    rw [hc']
    exact hmore (.chunk l) _ _ (hp.trans hl) rfl rfl (close_suffix _ _)
  cases hkind : (Token.read x t).1 with
  | blank => exact absurd hkind hblank
  | atKeyword name =>
    rw [hkind] at hpieces
    exact hmore (.keyword name _) _ _ hpieces rfl rfl List.suffix_rfl
  | semicolon =>
    rw [hkind] at hpieces
    rw [hpieces] at hheaded
    exact ⟨rfl, _, _, hheaded, hitem, .semicolon _⟩
  | plain =>
    rw [hkind] at hpieces
    exact hmore (.chunk _) _ _ hpieces rfl rfl List.suffix_rfl
  | opening b =>
    rw [hkind] at hpieces
    cases b with
    | round => exact hnested .round hpieces
    | square => exact hnested .square hpieces
    | curly =>
      rw [hpieces] at hheaded
      exact ⟨rfl, _, _, hheaded, hitem, .block _⟩
  | closing b =>
    rw [hkind] at hpieces
    cases b with
    | round => exact hmore (.chunk _) _ _ hpieces rfl rfl List.suffix_rfl
    | square => exact hmore (.chunk _) _ _ hpieces rfl rfl List.suffix_rfl
    | curly =>
      rw [hpieces] at hheaded
      refine ⟨?_, _, _, hheaded, rfl⟩
      rcases hstop with rfl | rfl
      · rfl
      · rw [atEnd, hkind] at hend
        simp at hend

/-- With enough steps, a head is read to its end. -/
theorem endsHead_readHead (text : List Char) {stop : Option Bracket}
    (hstop : stop = none ∨ stop = some .curly) {n : Nat} {c : Cursor} (hh : h.Spans ps c.rest)
    (hlen : c.rest.length < n) : EndsHead text stop h.start (readHead text stop n h) c := by
  induction n generalizing c h ps with
  | zero => exact absurd hlen (Nat.not_lt_zero _)
  | succ n ih =>
    rw [EndsHead, readHead, yields_bind, yields_next]
    intro k r hnext
    have hlater := hnext.suffix.2
    obtain ⟨blanks, hs, hblanks⟩ := exists_blanks c.rest
    have hheaded := hh.headed_append hs hblanks
    have hitem (body : Option (List Spec)) := hh.ofHead_eq hblanks body
    cases hnext with
    | done hend => exact ⟨rfl, _, _, hheaded, hitem, .done hend⟩
    | @token x t hx hend =>
      have hshort : (t.drop (Token.read x t).2).length < n := by
        have hlt := (hlater rfl).2
        omega
      rw [hx] at hheaded
      refine endsHead_headStep hstop hheaded hitem hend (kind_ne_blank hx) hshort
        (fun p s marks hp hinert hblank hsuffix => ?_) c.marks
      rw [← hx] at hp
      rw [← h.add_start p s]
      exact ih (c := ⟨s, marks⟩) (hh.add hs hblanks hp hinert hblank)
        (Nat.lt_of_le_of_lt hsuffix.length_le hshort)

end Heads

end StyleTree.Css.Descent

namespace StyleTree.Css.Item.Assembly

open StyleTree.Text Descent

/-! ## Finishing -/

/-- The items of the document, from an assembly and the pieces that are left. -/
def finish (a : Assembly) (ps : List Piece) : Except Stop (List Spec) := do
  let b ← a.run ps
  b.close b.levels

/-- The bracket that ends the innermost open block. -/
def stopOf : List Level → Option Bracket
  | [] => none
  | _ :: _ => some .curly

/-- An item may begin, at a place in the text. -/
structure Ready (text : List Char) (a : Assembly) (s : List Char) : Prop where
  head : a.head = []
  offset : a.offset + s.length = text.length

/-- Going on with the pieces leads to a place where an item may begin, and adds items. -/
def Goes (text : List Char) (a : Assembly) (ps : List Piece) (new : List Spec) (s : List Char) :
    Prop :=
  ∃ b, Ready text b s ∧ b.items = new.reverse ++ a.items ∧ b.levels = a.levels ∧
    a.finish ps = b.finish (pieces s)

/-- Going on with the pieces fails. -/
def Fails (text : List Char) (a : Assembly) (ps : List Piece) (e : Fault) : Prop :=
  ∃ stop, a.finish ps = .error stop ∧ e = .parse stop.cause (locate text stop.offset)

variable {text s : List Char} {a b : Assembly} {p : Piece} {ps qs : List Piece} {stop : Stop}

theorem finish_of_step (h : a.step p = .ok b) (ps : List Piece) :
    a.finish (p :: ps) = b.finish ps := by
  rw [finish, run_cons_of_ok h]
  rfl

theorem finish_of_step_error (h : a.step p = .error stop) (ps : List Piece) :
    a.finish (p :: ps) = .error stop := by
  rw [finish, run, h]
  rfl

theorem length_textOf_cons (p : Piece) (ps : List Piece) :
    (textOf (p :: ps)).length = p.text.length + (textOf ps).length :=
  List.length_append

/-- What is added on the way to a place and from there on is added in all. -/
theorem Goes.after (new : List Spec) {new' : List Spec} (h : b.Goes text qs new' s)
    (hitems : b.items = new.reverse ++ a.items) (hlevels : b.levels = a.levels)
    (hfinish : a.finish ps = b.finish qs) : a.Goes text ps (new ++ new') s := by
  obtain ⟨b', hready, hitems', hlevels', hfinish'⟩ := h
  refine ⟨b', hready, ?_, hlevels'.trans hlevels, hfinish.trans hfinish'⟩
  rw [hitems', hitems, List.reverse_append, List.append_assoc]

theorem Fails.of_finish {e : Fault} (h : b.Fails text qs e) (hfinish : a.finish ps = b.finish qs) :
    a.Fails text ps e := by
  obtain ⟨stop, hstop, he⟩ := h
  exact ⟨stop, hfinish.trans hstop, he⟩

/-- A failure is reported at a place in the text. -/
theorem fails_of_finish (h : a.finish ps = .error stop)
    (hoffset : stop.offset + s.length = text.length) :
    a.Fails text ps (faultAt text stop.cause s) := by
  refine ⟨stop, h, ?_⟩
  rw [faultAt, ← hoffset, Nat.add_sub_cancel]

/-- Blanks where an item may begin belong to none. -/
theorem goes_blanks (hhead : a.head = []) (hblanks : ∀ p ∈ ps, p.isBlank = true)
    (hoffset : a.offset + (textOf ps).length + s.length = text.length) :
    a.Goes text (ps ++ pieces s) [] s := by
  induction ps generalizing a with
  | nil => exact ⟨a, ⟨hhead, hoffset⟩, rfl, rfl, rfl⟩
  | cons p ps ih =>
    have hp := hblanks p (List.mem_cons_self ..)
    cases p with
    | blank l =>
      have hstep : a.step (.blank l) = .ok (a.skip l.length) := by
        rw [step, hhead]
        rfl
      rw [length_textOf_cons, ← Nat.add_assoc] at hoffset
      obtain ⟨b, hb, hitems, hlevels, hfinish⟩ :=
        ih (a := a.skip l.length) hhead (fun p hp => hblanks p (List.mem_cons_of_mem _ hp)) hoffset
      refine ⟨b, hb, hitems, hlevels, ?_⟩
      rw [List.cons_append, finish_of_step hstep, hfinish]
    | keyword | chunk | semicolon | openBlock | closeBlock => cases hp

theorem goes_skipBlanks (hready : Ready text a s) : a.Goes text (pieces s) [] (skipBlanks s) := by
  obtain ⟨blanks, hpieces, hblanks⟩ := exists_blanks s
  rw [hpieces]
  refine goes_blanks hready.head hblanks ?_
  rw [Nat.add_assoc, ← List.length_append, ← text_eq hpieces]
  exact hready.offset

theorem step_of_isInert (hp : p.isInert = true) (hfirst : a.head = [] → p.isBlank = false) :
    a.step p = .ok (a.push p) := by
  cases p with
  | blank l =>
    have hne : ¬ a.head.isEmpty = true := fun hempty => nomatch hfirst (List.isEmpty_iff.mp hempty)
    rw [step, if_neg hne]
  | keyword | chunk => rfl
  | semicolon | openBlock | closeBlock => cases hp

/-- The pieces of a head are added to it, one after the other. -/
theorem exists_pushed (hinert : ∀ p ∈ ps, p.isInert = true)
    (hfirst : a.head = [] → ∀ p, ps.head? = some p → p.isBlank = false) (qs : List Piece) :
    ∃ b : Assembly, b.head = ps.reverse ++ a.head ∧ b.offset = a.offset + (textOf ps).length ∧
      b.items = a.items ∧ b.levels = a.levels ∧
      (b.head ≠ [] → b.start = if a.head.isEmpty then a.offset else a.start) ∧
      a.finish (ps ++ qs) = b.finish qs := by
  induction ps generalizing a with
  | nil => exact ⟨a, rfl, rfl, rfl, rfl, fun hne => (if_neg (by simpa using hne)).symm, rfl⟩
  | cons p ps ih =>
    have hstep := step_of_isInert (hinert p (List.mem_cons_self ..)) fun hnil => hfirst hnil p rfl
    obtain ⟨b, hhead, hoffset, hitems, hlevels, hstart, hfinish⟩ := ih (a := a.push p)
      (fun q hq => hinert q (List.mem_cons_of_mem _ hq))
      fun hnil => absurd hnil (List.cons_ne_nil _ _)
    refine ⟨b, ?_, ?_, hitems, hlevels, hstart, ?_⟩
    · rw [hhead, List.reverse_cons, List.append_assoc]
      rfl
    · rw [hoffset, length_textOf_cons, ← Nat.add_assoc]
      rfl
    · rw [List.cons_append, finish_of_step hstep, hfinish]

/-- The head of an item is read, and then what follows it. -/
theorem exists_headed {start : List Char} {head : List Piece} (hready : Ready text a start)
    (hheaded : Headed start head qs) :
    ∃ b : Assembly, b.head = head.reverse ∧ b.offset + (textOf qs).length = text.length ∧
      b.items = a.items ∧
      b.levels = a.levels ∧ (b.head ≠ [] → b.start + start.length = text.length) ∧
      a.finish (pieces start) = b.finish qs := by
  obtain ⟨b, hhead, hoffset, hitems, hlevels, hstart, hfinish⟩ :=
    exists_pushed hheaded.inert (fun _ => hheaded.first) qs
  rw [hready.head] at hhead hstart
  rw [List.append_nil] at hhead
  refine ⟨b, hhead, ?_, hitems, hlevels, fun hne => ?_, ?_⟩
  · have hlen := hheaded.length_eq
    have hall := hready.offset
    omega
  · rw [hstart hne]
    exact hready.offset
  · rw [hheaded.pieces_eq, hfinish]

/-! ## The end of a statement or of a block -/

theorem endStatement_of_nil (hhead : a.head = []) : a.endStatement = .ok a := by
  have hitem : ofHead a.head none = .ok none := by rw [hhead]; rfl
  rw [endStatement_of_ok hitem, ← hhead]
  rfl

/-- What is being read ends with the text, or with a closing brace if a block is open. -/
theorem atEnd_cases {levels : List Level} (h : atEnd (stopOf levels) s = true) :
    s = [] ∨ (∃ level rest, levels = level :: rest) ∧
      pieces s = .closeBlock :: pieces (Descent.close [.curly] s) := by
  cases s with
  | nil => exact Or.inl rfl
  | cons c s =>
    cases levels with
    | nil => cases h
    | cons level levels =>
      have hkind : (Token.read c s).1 = .closing .curly := by simpa [atEnd, stopOf] using h
      refine Or.inr ⟨⟨level, levels, rfl⟩, ?_⟩
      rw [pieces_cons, Descent.close_cons, hkind]
      exact congrArg (_ :: ·) (congrArg pieces (close_nil_left _).symm)

/-- Where what is being read ends, a statement may as well be ended before. -/
theorem finish_of_endStatement (h : a.endStatement = .ok b) (hhead : b.head = [])
    (hlevels : b.levels = a.levels) (hend : atEnd (stopOf a.levels) s = true) :
    a.finish (pieces s) = b.finish (pieces s) := by
  have hb := endStatement_of_nil hhead
  rcases atEnd_cases hend with rfl | ⟨⟨level, levels, hcons⟩, hpieces⟩
  · show a.close a.levels = b.close b.levels
    rw [hlevels]
    cases a.levels with
    | nil => rw [Assembly.close, Assembly.close, h, hb]
    | cons level levels => rw [Assembly.close, Assembly.close, h, hb]
  · have hstep : a.step .closeBlock = b.step .closeBlock := by
      rw [step, step, hlevels, hcons, h, hb]
    rw [hpieces, finish, finish, run, run, hstep]

/-- A statement that can be made is added. -/
theorem goes_statement {item : Option Spec} (hend : HeadEnd (stopOf a.levels) qs false s)
    (hoffset : a.offset + (textOf qs).length = text.length)
    (hitem : ofHead a.head none = .ok item) : a.Goes text qs item.toList s := by
  let b : Assembly := { a with head := [], items := item.toList ++ a.items }
  have hstatement : a.endStatement = .ok b := endStatement_of_ok hitem
  have hitems : item.toList ++ a.items = item.toList.reverse ++ a.items := by cases item <;> rfl
  cases hend with
  | semicolon =>
    have hstep : a.step .semicolon = .ok (b.skip 1) := by
      rw [step, hstatement]
      rfl
    rw [length_textOf_cons, textOf_pieces, ← Nat.add_assoc] at hoffset
    exact ⟨b.skip 1, ⟨rfl, hoffset⟩, hitems, rfl, finish_of_step hstep _⟩
  | done hend =>
    rw [textOf_pieces] at hoffset
    exact ⟨b, ⟨rfl, hoffset⟩, hitems, rfl, finish_of_endStatement hstatement rfl rfl hend⟩

/-- A statement that cannot be made is a failure. -/
theorem finish_eq_error {cause : ParseCause} (hend : HeadEnd (stopOf a.levels) qs false s)
    (hitem : ofHead a.head none = .error cause) : a.finish qs = .error ⟨cause, a.start⟩ := by
  have hstatement := endStatement_of_error hitem
  cases hend with
  | semicolon =>
    refine finish_of_step_error ?_ _
    rw [step, hstatement]
    rfl
  | done hend =>
    rcases atEnd_cases hend with rfl | ⟨⟨level, levels, hcons⟩, hpieces⟩
    · show a.close a.levels = _
      cases a.levels <;> rw [Assembly.close, hstatement] <;> rfl
    · rw [hpieces]
      refine finish_of_step_error ?_ _
      rw [step, hcons, hstatement]
      rfl

/-- A closing brace where no block is open is a failure just after it. -/
theorem fails_strayBrace {start : List Char} {head : List Piece} (hready : Ready text a start)
    (hstop : stopOf a.levels = none) (hheaded : Headed start head (.closeBlock :: pieces s)) :
    a.Fails text (pieces start) (faultAt text .strayBrace s) := by
  obtain ⟨b, -, hoffset, -, hlevels, -, hfinish⟩ := exists_headed hready hheaded
  have hnone : b.levels = [] := by
    rw [hlevels]
    cases hcons : a.levels with
    | nil => rfl
    | cons level levels =>
      rw [hcons] at hstop
      cases hstop
  have hstep : b.step .closeBlock = .error ⟨.strayBrace, b.offset + 1⟩ := by
    rw [step, hnone]
  rw [length_textOf_cons, textOf_pieces, ← Nat.add_assoc] at hoffset
  exact (fails_of_finish (finish_of_step_error hstep _) hoffset).of_finish hfinish

/-- A block that ends is made the body of the head before it. -/
theorem exists_left {level : Level} {levels : List Level} (hready : Ready text a s)
    (hlevels : a.levels = level :: levels) (hend : atEnd (stopOf a.levels) s = true) :
    ∃ spec b, ofHead level.head (some a.items.reverse) = .ok (some spec) ∧
      Ready text b (Descent.close [.curly] s) ∧ b.items = spec :: level.items ∧ b.levels = levels ∧
      a.finish (pieces s) = b.finish (pieces (Descent.close [.curly] s)) := by
  obtain ⟨spec, hspec, hblock⟩ := exists_endBlock a level levels
  have hstatement := endStatement_of_nil hready.head
  let b : Assembly := { a with head := [], items := spec :: level.items, levels := levels }
  rcases atEnd_cases hend with rfl | ⟨-, hpieces⟩
  · refine ⟨spec, b, hspec, ⟨rfl, hready.offset⟩, rfl, rfl, ?_⟩
    show a.close a.levels = b.close levels
    rw [hlevels, Assembly.close, hstatement]
    show (do (← a.endBlock level levels).close levels : Except Stop (List Spec)) = _
    rw [hblock]
    rfl
  · have hstep : a.step .closeBlock = .ok (b.skip 1) := by
      rw [step, hlevels, hstatement]
      show (do return (← a.endBlock level levels).skip 1 : Except Stop Assembly) = _
      rw [hblock]
      rfl
    have hlen : s.length = 1 + (Descent.close [.curly] s).length := by
      calc s.length
        _ = (textOf (pieces s)).length := by rw [textOf_pieces]
        _ = 1 + (textOf (pieces (Descent.close [.curly] s))).length := by
          rw [hpieces, length_textOf_cons]; rfl
        _ = 1 + (Descent.close [.curly] s).length := by rw [textOf_pieces]
    refine ⟨spec, b.skip 1, hspec, ⟨rfl, ?_⟩, rfl, rfl, ?_⟩
    · have hall := hready.offset
      show a.offset + 1 + _ = _
      omega
    · rw [hpieces, finish_of_step hstep]

end StyleTree.Css.Item.Assembly

namespace StyleTree.Css.Descent

open StyleTree.Text StyleTree.Action Item Assembly

/-! ## Items -/

section Items

variable {text : List Char} {a : Assembly} {c : Cursor} {n : Nat}

/-- The reader fails as the assembly does, or comes to the end of what is being read, and adds items
on the way. -/
def Follows (text : List Char) (x : Action Cursor (List Spec)) (a : Assembly) (c : Cursor) : Prop :=
  x.Yields c
    (fun new c' => a.Goes text (pieces c.rest) new c'.rest ∧ atEnd (stopOf a.levels) c'.rest = true)
    fun e _ => a.Fails text (pieces c.rest) e

theorem stopOf_cases (levels : List Level) :
    stopOf levels = none ∨ stopOf levels = some .curly := by
  cases levels with
  | nil => exact Or.inl rfl
  | cons level levels => exact Or.inr rfl

theorem stopOf_of_ne_nil {levels : List Level} (h : levels ≠ []) : stopOf levels = some .curly := by
  obtain ⟨level, levels, rfl⟩ := List.exists_cons_of_ne_nil h
  rfl

/-- A block is read and becomes the body of the head before it, if its items are read. -/
theorem yields_block {inner : Action Cursor (List Spec)}
    (hoffset : a.offset + (1 + c.rest.length) = text.length)
    (hinner : ∀ b c', c'.rest = c.rest → Ready text b c.rest → b.levels ≠ [] →
      Follows text inner b c')
    (start : List Char) :
    (nested text .curly start inner).Yields c
      (fun kids c' => ∃ spec, ofHead a.head (some kids) = .ok (some spec) ∧
        a.Goes text (.openBlock :: pieces c.rest) [spec] c'.rest)
      fun e _ => a.Fails text (.openBlock :: pieces c.rest) e := by
  let b : Assembly :=
    { a.skip 1 with head := [], items := [], levels := ⟨a.head, a.items⟩ :: a.levels }
  have hfinish : a.finish (.openBlock :: pieces c.rest) = b.finish (pieces c.rest) :=
    finish_of_step rfl _
  have hready : Ready text b c.rest := ⟨rfl, (Nat.add_assoc ..).trans hoffset⟩
  have hinside := hinner b { c with marks := .enter start c.rest :: c.marks }
    rfl hready (List.cons_ne_nil _ _)
  refine yields_nested_of_atEnd (hinside.mono ?_ fun e _ he => he.of_finish hfinish)
  -- the items of a block are read up to its brace, so the check that follows does not fail
  rintro kids c' ⟨⟨b', hready', hitems, hlevels, hfinish'⟩, hend⟩
  refine ⟨hend, ?_⟩
  rw [← hlevels] at hend
  obtain ⟨spec, b'', hspec, hready'', hitems', hlevels', hfinish''⟩ :=
    exists_left hready' hlevels hend
  have hkids : b'.items.reverse = kids := by rw [hitems, List.append_nil, List.reverse_reverse]
  rw [hkids] at hspec
  exact ⟨spec, hspec, b'', hready'', hitems', hlevels', hfinish.trans (hfinish'.trans hfinish'')⟩

/-- With enough steps, an item is read, if the blocks inside it are. -/
theorem yields_readItem {inner : Action Cursor (List Spec)} (hready : Ready text a c.rest)
    (hskip : skipBlanks c.rest = c.rest) (hlen : c.rest.length < n)
    (hinner : ∀ b c', c'.rest.length < c.rest.length → Ready text b c'.rest → b.levels ≠ [] →
      Follows text inner b c') :
    (readItem text (stopOf a.levels) n inner).Yields c
      (fun item c' => a.Goes text (pieces c.rest) item.toList c'.rest)
      fun e _ => a.Fails text (pieces c.rest) e := by
  unfold readItem
  rw [yields_bind, yields_rest, yields_bind]
  refine (endsHead_readHead text (stopOf_cases a.levels) (Head.spans_begin hskip) hlen).mono ?_ ?_
  · rintro ⟨h, block⟩ ⟨r, marks⟩ ⟨hstart, head, qs, hheaded, hitem, hend⟩
    obtain ⟨b, hhead, hoffset, hitems, hlevels, hbegin, hfinish⟩ := exists_headed hready hheaded
    dsimp only at hstart hitem hend ⊢
    rw [← hhead] at hitem
    rw [← hlevels] at hend
    rw [hstart, yields_bind]
    cases block with
    | false =>
      rw [readBody, yields_pure, yields_ofExcept, ← hitem none]
      cases hof : ofHead b.head none with
      | ok item => exact (goes_statement hend hoffset hof).after [] hitems hlevels hfinish
      | error cause =>
        -- an empty head is no item and no fault, so the item has begun where its head did
        have hne : b.head ≠ [] := by
          intro hnil
          rw [hnil] at hof
          cases hof
        have hfails := fails_of_finish (finish_eq_error hend hof) (hbegin hne)
        exact hfails.of_finish hfinish
    | true =>
      cases hend
      rw [readBody, yields_map]
      rw [length_textOf_cons, textOf_pieces] at hoffset
      refine (yields_block hoffset (fun b' c' hc' => ?_) _).mono ?_
        fun e _ he => he.of_finish hfinish
      · rw [← hc']
        refine hinner b' c' ?_
        have hall : c.rest.length = _ := hheaded.length_eq
        rw [length_textOf_cons, textOf_pieces] at hall
        have hone : Piece.openBlock.text.length = 1 := rfl
        have hr : c'.rest.length = r.length := congrArg List.length hc'
        omega
      · rintro kids c' ⟨spec, hspec, hgoes⟩
        rw [yields_ofExcept, ← hitem, hspec]
        exact hgoes.after [] hitems hlevels hfinish
  · rintro e c' ⟨hnone, head, s, hheaded, rfl⟩
    exact fails_strayBrace hready hnone hheaded

/-- With enough steps, the reader goes on as the assembly does. -/
theorem follows_items (hready : Ready text a c.rest) (hlen : c.rest.length < n) :
    Follows text (items text n (stopOf a.levels)) a c := by
  induction n generalizing a c with
  | zero => exact absurd hlen (Nat.not_lt_zero _)
  | succ n ih =>
    obtain ⟨b, hready', hitems, hlevels, hfinish⟩ := goes_skipBlanks hready
    rw [Follows, items, yields_bind, yields_rest, yields_bind, yields_moveTo,
      yields_bind, yields_rest]
    dsimp only
    split
    · next hend => exact ⟨⟨b, hready', hitems, hlevels, hfinish⟩, hend⟩
    · next hnot =>
      have hskip := skipBlanks_skipBlanks c.rest
      have hshort := (skipBlanks_suffix c.rest).length_le
      have hend : atEnd (stopOf a.levels) (skipBlanks (skipBlanks c.rest)) = false := by
        rw [hskip]
        simpa using hnot
      have hitem : (readItem text (stopOf a.levels) (n + 1) (items text n (some .curly))).Yields
          { c with rest := skipBlanks c.rest }
          (fun item c' => b.Goes text (pieces (skipBlanks c.rest)) item.toList c'.rest)
          fun e _ => b.Fails text (pieces (skipBlanks c.rest)) e := by
        rw [← hlevels]
        refine yields_readItem hready' hskip (Nat.lt_of_le_of_lt hshort hlen)
          fun b' c' hlt hb' hne => ?_
        -- a block inside the item is shorter than the item
        rw [← stopOf_of_ne_nil hne]
        refine ih hb' ?_
        dsimp only at hlt
        omega
      have hlater := yields_readItem_later (c := { c with rest := skipBlanks c.rest }) text n
        (onward_items text n (some .curly)) hend
      rw [yields_bind, yields_round]
      refine (hitem.and hlater).mono ?_ ?_
      · rintro item c' ⟨hgoes, -, hlater⟩
        obtain ⟨b', hready'', hitems', hlevels', hfinish'⟩ := hgoes.after [] hitems hlevels hfinish
        -- and so is what follows it, because the round has taken something from the text
        have hlt := hlater.2
        dsimp only at hlt
        have hrest := ih (a := b')
          (c := { c' with marks := .round (skipBlanks c.rest) c'.rest :: c'.marks })
          hready'' (by dsimp only; omega)
        rw [hlevels'] at hrest
        rw [yields_bind]
        refine hrest.mono (fun new c'' hnew => ?_) fun e _ he => he.of_finish hfinish'
        rw [hlevels'] at hnew
        exact ⟨hnew.1.after item.toList hitems' hlevels' hfinish', hnew.2⟩
      · rintro e c' ⟨hfails, -⟩
        exact hfails.of_finish hfinish

end Items

/-! ## Whole texts -/

/-- At the end of the text there is nothing to add. -/
theorem parse_of_goes {text : String} {specs : List Spec}
    (h : Assembly.empty.Goes text.toList (pieces text.toList) specs []) :
    parse text = .ok specs := by
  obtain ⟨b, hready, hitems, hlevels, hfinish⟩ := h
  have hlast : b.finish [] = .ok specs := by
    show b.close b.levels = .ok specs
    rw [hlevels]
    show (do return (← b.endStatement).items.reverse : Except Stop (List Spec)) = _
    rw [endStatement_of_nil hready.head]
    show Except.ok b.items.reverse = _
    rw [hitems]
    show Except.ok (specs.reverse ++ []).reverse = _
    rw [List.append_nil, List.reverse_reverse]
  have hassemble : assemble (pieces text.toList) = .ok specs := hfinish.trans hlast
  rw [parse, hassemble]

theorem parse_of_fails {text : String} {e : Fault}
    (h : Assembly.empty.Fails text.toList (pieces text.toList) e) : parse text = .error e := by
  obtain ⟨stop, hfinish, rfl⟩ := h
  have hassemble : assemble (pieces text.toList) = .error stop := hfinish
  rw [parse, hassemble]

theorem parse_ne_unfinished (text : String) : parse text ≠ .error .unfinished := by
  unfold parse
  split <;> nofun

/-- Reading by descent gives what parsing gives, if there is a step for each character and one for
the end. -/
theorem result_items (text : String) {n : Nat} (hn : text.toList.length < n) :
    ((items text.toList n none).run ⟨text.toList, []⟩).result = parse text := by
  have hready : Ready text.toList Assembly.empty text.toList := ⟨rfl, Nat.zero_add _⟩
  have hfollows := follows_items (c := ⟨text.toList, []⟩) hready hn
  cases hresult : ((items text.toList n none).run ⟨text.toList, []⟩).result with
  | ok specs =>
    obtain ⟨hgoes, hend⟩ := hfollows.of_ok hresult
    rcases atEnd_cases hend with hnil | ⟨⟨level, levels, hcons⟩, -⟩
    · rw [hnil] at hgoes
      exact (parse_of_goes hgoes).symm
    · cases hcons
  | error e => exact (parse_of_fails (hfollows.of_error hresult)).symm

/-- **Reading always ends.**  With one step more than the text has characters, or with any number
above that, the reader by descent does not run out of steps and computes what parsing gives.  Every
round of its loop over items ends later than it began, what is inside a block or bracket is read
from a later place than where its item began, and what is outside goes on at or after the place that
reading the inside came to. -/
theorem items_eq_parse (text : String) (extra : Nat) :
    let o := (items text.toList (text.toList.length + 1 + extra) none).run ⟨text.toList, []⟩
    o.result = parse text ∧ o.result ≠ .error .unfinished ∧ ∀ m ∈ o.state.marks, m.Advances := by
  have hresult := result_items text (n := text.toList.length + 1 + extra) (by omega)
  refine ⟨hresult, ?_, fun m hm => advances_of_mem_marks _ _ _ _ hm⟩
  rw [hresult]
  exact parse_ne_unfinished text

end StyleTree.Css.Descent
