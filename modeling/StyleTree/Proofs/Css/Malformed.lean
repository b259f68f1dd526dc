import StyleTree.Proofs.Css.Termination

/-!
# Texts that are not stylesheets

Almost every text is read as something.  There are two ways to fail: a closing brace where no block
is open, and an item without a block, a colon or an at-keyword.  The first is reported just after
the brace, the second where the item begins, and everything before that item is a stylesheet by
itself.

The last is not obvious.  The text before an item is read on its own as it is read in place only
because it ends in a barrier, followed by separators and by comments that are closed.

The reader by descent could fail in a third way.  Each time it has read what is inside a block or
bracket, it checks that nothing is left over there.  It computes what parsing gives, so no text
fails that check.

* `lines`, `EndsAt`: lines and columns, by the lines of a text and not by counting along it.
* `openBlocks`: how many blocks are open after some pieces.
* `Malformed text message before`: the two ways to fail, and the part of the text to report.
* `Assembly.Reached`: how the pieces that are read are divided into finished items, blanks and the
  current head.
* `malformed_of_parse`: every text that is not parsed is malformed, and the fault says how and
  where; and the reader by descent, with its check, reports the same.
-/

namespace StyleTree.Text

/-! ## Lines and columns -/

/-- The lines of a text, without what ends them.  The last line is empty if the text ends with a
line end. -/
def lines : List Char → List (List Char)
  | [] => [[]]
  | '\r' :: '\n' :: s => [] :: lines s
  | c :: s => if isNewline c then [] :: lines s else (lines s).modifyHead (c :: ·)

/-- The number of UTF-16 code units of a line. -/
def width : List Char → Nat
  | [] => 0
  | c :: line => Position.units c + width line

/-- The position is the one just after the text: in its last line, and in the column after that
line. -/
def EndsAt (text : List Char) (p : Position) : Prop :=
  p.line = (lines text).length ∧ p.column = width ((lines text).getLastD []) + 1

namespace Position

/-- The position after lines of which the first goes on from a position. -/
def past (p : Position) (ls : List (List Char)) : Position :=
  ⟨p.line + ls.tail.length, (if ls.tail = [] then p.column else 1) + width (ls.getLastD [])⟩

theorem past_lineEnd (p : Position) (l : List Char) (ls : List (List Char)) :
    p.past ([] :: l :: ls) = p.nextLine.past (l :: ls) := by
  have hcolumn : (if (l :: ls).tail = [] then p.nextLine.column else 1) = 1 := ite_self 1
  rw [past, past, hcolumn]
  simp [nextLine, Nat.add_assoc, Nat.add_comm 1]

theorem past_cons (p : Position) (c : Char) (l : List Char) (ls : List (List Char)) :
    p.past ((c :: l) :: ls) = past ⟨p.line, p.column + units c⟩ (l :: ls) := by
  cases ls with
  | nil => simp [past, width, Nat.add_assoc]
  | cons l' ls => simp [past]

end Position

theorem exists_lines (s : List Char) : ∃ l ls, lines s = l :: ls := by
  fun_induction lines s with
  | case1 => exact ⟨_, _, rfl⟩
  | case2 => exact ⟨_, _, rfl⟩
  | case3 => exact ⟨_, _, rfl⟩
  | case4 c s hpair hc ih =>
    obtain ⟨l, ls, hl⟩ := ih
    exact ⟨c :: l, ls, by rw [hl]; rfl⟩

/-- Counting along a text comes to the same as counting its lines. -/
theorem advance_eq_past (p : Position) (s : List Char) : p.advance s = p.past (lines s) := by
  fun_induction Position.advance p s with
  | case1 p => simp [lines, Position.past, width]
  | case2 p s ih =>
    obtain ⟨l, ls, hl⟩ := exists_lines s
    rw [ih, lines, hl, Position.past_lineEnd]
  | case3 p c s hpair ih =>
    obtain ⟨l, ls, hl⟩ := exists_lines s
    rw [ih, lines, hl]
    · split
      · rw [Position.past_lineEnd]
      · exact (Position.past_cons p c l ls).symm
    · exact hpair

theorem endsAt_after (text : List Char) : EndsAt text (Position.after text) := by
  obtain ⟨l, ls, hl⟩ := exists_lines text
  unfold EndsAt Position.after
  have hcolumn : (if (l :: ls).tail = [] then Position.start.column else 1) = 1 := ite_self 1
  rw [advance_eq_past, hl, Position.past, hcolumn]
  exact ⟨Nat.add_comm .., Nat.add_comm ..⟩

end StyleTree.Text

namespace StyleTree.Css

open StyleTree.Text Item

/-! ## The two ways to fail -/

/-- The number of open blocks after a piece, given their number before it.  A closing brace needs
one. -/
def Piece.blocksAfter : Nat → Piece → Option Nat
  | n, .openBlock => some (n + 1)
  | 0, .closeBlock => none
  | n + 1, .closeBlock => some n
  | n, _ => some n

/-- The number of blocks that are open after the pieces, if every closing brace among them closes
one. -/
def openBlocks (ps : List Piece) : Option Nat :=
  ps.foldlM Piece.blocksAfter 0

theorem openBlocks_concat (ps : List Piece) (p : Piece) :
    openBlocks (ps ++ [p]) = (openBlocks ps).bind fun n => p.blocksAfter n := by
  unfold openBlocks
  rw [List.foldlM_append]
  cases ps.foldlM Piece.blocksAfter 0 with
  | none => rfl
  | some n => exact bind_pure (Piece.blocksAfter n p)

/-- How a text fails to be a stylesheet: what is said about it, and the part of the text just after
which this is said. -/
inductive Malformed (text : List Char) : String → List Char → Prop
  /-- A closing brace that closes no open block. -/
  | strayBrace {before after : List Char} {ps qs : List Piece}
      (htext : text = before ++ '\x7d' :: after)
      (hpieces : pieces text = ps ++ .closeBlock :: qs) (hbefore : textOf ps = before)
      (hopen : openBlocks ps = some 0) :
      Malformed text "unexpected '\x7d'" (before ++ ['\x7d'])
  /-- An item without a colon, after a text that is a stylesheet. -/
  | missingColon {before after : List Char} {item : String} (htext : text = before ++ after)
      (hbefore : ∃ specs, parse (String.ofList before) = .ok specs)
      (hitem : item.toList <+: trimStart after) (hne : item ≠ "")
      (htrim : trim item.toList = item.toList) (hcolon : ':' ∉ item.toList) :
      Malformed text ("expected ':' in declaration '" ++ item ++ "'") before

/-! ## Items without a colon -/

/-- A text that is trimmed to something starts with it, after blanks. -/
theorem trim_prefix_trimStart {s : List Char} (h : trim s ≠ []) (t : List Char) :
    trim s <+: trimStart (s ++ t) := by
  obtain ⟨l, r, hs, hl, -⟩ := exists_trim s
  obtain ⟨c, m, hcm⟩ := List.exists_cons_of_ne_nil h
  have hc : isBlank c = false := isBlank_eq_false_of_trim (s := m) (by rw [← hcm, trim_trim])
  refine ⟨r ++ t, ?_⟩
  rw [trimStart]
  nth_rewrite 2 [hs]
  rw [List.append_assoc, List.append_assoc, List.dropWhile_append_of_pos hl, hcm, List.cons_append,
    List.dropWhile_cons_of_neg (by simp [hc])]

/-- The only statement that is none. -/
theorem missingColon_of_ofHead {head : List Piece} {cause : ParseCause}
    (h : ofHead head none = .error cause) :
    cause = .missingColon (String.ofList (trim (textOf (headPieces head)))) ∧
      trim (textOf (headPieces head)) ≠ [] ∧ ':' ∉ trim (textOf (headPieces head)) := by
  unfold ofHead at h
  split at h
  · cases h
  · dsimp only at h
    split at h
    · cases h
    · next hne =>
      split at h
      · cases h
      · next hsplit =>
        cases h
        exact ⟨rfl, fun hnil => hne (List.isEmpty_iff.mpr hnil), notMem_of_splitAt?_eq_none hsplit⟩

/-! ## Blanks before an item -/

theorem commentLength_append {inner : List Char} (h : ¬ ['*', '/'] <:+: inner ++ ['*'])
    (rest : List Char) : commentLength (inner ++ ['*', '/'] ++ rest) = inner.length + 2 := by
  induction inner with
  | nil => rfl
  | cons c inner ih =>
    have htail : ¬ ['*', '/'] <:+: inner ++ ['*'] := fun hinside =>
      h (hinside.trans (List.suffix_cons c _).isInfix)
    rw [List.cons_append, List.cons_append, commentLength_cons, if_neg, ih htail, List.length_cons]
    rintro ⟨rfl, hhead⟩
    cases inner with
    | nil => exact absurd hhead (by simp)
    | cons d inner =>
      obtain rfl : d = '/' := Option.some.inj hhead
      exact h ⟨[], inner ++ ['*'], rfl⟩

/-- A closed comment where an item may begin is only counted. -/
theorem reads_comment {inner : List Char} (h : ¬ ['*', '/'] <:+: inner ++ ['*']) :
    Reads ('/' :: '*' :: (inner ++ ['*', '/'])) [] := by
  intro o start items levels rest
  have hlen := commentLength_append h rest
  have hread : Token.read '/' ('*' :: (inner ++ ['*', '/'] ++ rest)) =
      (.blank, inner.length + 2 + 1) := by
    rw [← hlen]
    rfl
  have hpieces : pieces ('/' :: '*' :: (inner ++ ['*', '/']) ++ rest) =
      .blank ('/' :: '*' :: (inner ++ ['*', '/'])) :: pieces rest := by
    have hfull : (inner ++ ['*', '/']).length = inner.length + 2 := List.length_append
    rw [pieces, List.cons_append, List.cons_append, tokens_cons, hread]
    dsimp only
    rw [List.take_succ_cons, List.drop_succ_cons, ← hfull, List.take_left, List.drop_left]
    rfl
  refine ⟨o + ('/' :: '*' :: (inner ++ ['*', '/'])).length, start, ?_⟩
  rw [hpieces]
  exact run_cons_of_ok rfl _

/-- Blank pieces that are followed by something add no item. -/
theorem reads_blanks {blanks qs : List Piece} (hblanks : ∀ p ∈ blanks, p.isBlank = true)
    (hf : AllFaithful (blanks ++ qs)) (hqs : textOf qs ≠ []) : Reads (textOf blanks) [] := by
  induction blanks with
  | nil => exact Reads.nil
  | cons p blanks ih =>
    obtain ⟨hp, hrest⟩ := hf
    have hblank := hblanks p (List.mem_cons_self ..)
    have htail := ih (fun q hq => hblanks q (List.mem_cons_of_mem _ hq)) hrest
    have hmore : textOf (blanks ++ qs) ≠ [] := by
      rw [textOf_append]
      exact List.append_ne_nil_of_right_ne_nil _ hqs
    cases hp with
    | separators hl => exact (reads_separators hl).append htail
    | comment hbody =>
      rcases hbody with ⟨inner, rfl, hinner⟩ | ⟨hend, -⟩
      · exact (reads_comment hinner).append htail
      · exact absurd hend hmore
    | keyword | chunk | semicolon | openBlock | closeBlock =>
      exact absurd hblank (by simp [Piece.isBlank])

/-! ## Texts before an item -/

/-- Where an item has just ended, or where there is none yet: the pieces are read up to a
barrier. -/
structure Whole (ps : List Piece) : Prop where
  barrier : ps = [] ∨ ∃ qs q, ps = qs ++ [q] ∧ q.isInert = false
  run : ∃ a, Assembly.empty.run ps = .ok a ∧ a.head = []

/-- The pieces up to a barrier are those of their text, whatever follows. -/
theorem Whole.pieces_append {w : List Char} {ps qs : List Piece} (h : Whole ps)
    (hw : pieces w = ps ++ qs) (t : List Char) : pieces (textOf ps ++ t) = ps ++ pieces t := by
  rcases h.barrier with rfl | ⟨ps, q, rfl, hq⟩
  · rfl
  · rw [List.append_assoc, List.singleton_append] at hw
    rw [pieces_textOf_append hq hw, List.append_assoc, List.singleton_append]

/-- The finished items of a text, and the blanks after them, are a stylesheet. -/
theorem Whole.exists_parse {w : List Char} {ps qs blanks : List Piece} (h : Whole ps)
    (hw : pieces w = ps ++ (blanks ++ qs)) (hblanks : ∀ p ∈ blanks, p.isBlank = true)
    (hqs : textOf qs ≠ []) :
    ∃ specs, parse (String.ofList (textOf (ps ++ blanks))) = .ok specs := by
  have hfaithful : AllFaithful (blanks ++ qs) := by
    have hall := allFaithful_pieces w
    rw [hw] at hall
    exact hall.of_append
  obtain ⟨⟨o, start, head, items, levels⟩, hrun, rfl⟩ := h.run
  obtain ⟨o', start', hreads⟩ := reads_blanks hblanks hfaithful hqs o start items levels []
  rw [List.append_nil] at hreads
  obtain ⟨specs, hclose⟩ := Assembly.exists_close (a := ⟨o', start', [], items, levels⟩) rfl levels
  refine ⟨specs, ?_⟩
  have hassemble : assemble (pieces (textOf (ps ++ blanks))) = .ok specs := by
    rw [textOf_append, h.pieces_append hw, assemble, Assembly.run_append hrun, hreads]
    exact hclose
  unfold parse
  rw [String.toList_ofList, hassemble]

/-! ## Every text -/

namespace Item.Assembly

/-- The pieces that are read are what is finished, then blanks, and then the head of the current
item, which starts after these. -/
def Divided (ps : List Piece) (a : Assembly) : Prop :=
  ∃ done blanks, ps = done ++ (blanks ++ a.head.reverse) ∧ Whole done ∧
    (∀ p ∈ blanks, p.isBlank = true) ∧ (a.head ≠ [] → a.start = (textOf (done ++ blanks)).length)

/-- Where a run has come: how many characters and blocks it has read, and how its pieces are
divided. -/
structure Reached (ps : List Piece) (a : Assembly) : Prop where
  run : empty.run ps = .ok a
  offset : a.offset = (textOf ps).length
  blocks : openBlocks ps = some a.levels.length
  divided : Divided ps a

theorem reached_empty : Reached [] empty where
  run := rfl
  offset := rfl
  blocks := rfl
  divided := ⟨[], [], rfl, ⟨Or.inl rfl, empty, rfl, rfl⟩, by simp, fun h => absurd rfl h⟩

/-- A step reads the text of its piece. -/
theorem Moves.offset_eq {a b : Assembly} {p : Piece} (h : Moves a p b) :
    b.offset = a.offset + p.text.length := by
  cases h <;> rfl

/-- A step opens and closes the blocks that its piece does. -/
theorem Moves.blocksAfter_eq {a b : Assembly} {p : Piece} (h : Moves a p b) :
    p.blocksAfter a.levels.length = some b.levels.length := by
  cases h with
  | skip => rfl
  | push hp =>
    cases p with
    | blank | keyword | chunk => rfl
    | semicolon | openBlock | closeBlock => exact absurd hp (by simp [Piece.isInert])
  | statement => rfl
  | openBlock => rfl
  | closeBlock hlevels =>
    rw [hlevels]
    rfl

/-- Every step keeps the account. -/
theorem Reached.step {ps : List Piece} {a b : Assembly} {p : Piece} (h : Reached ps a)
    (hstep : a.step p = .ok b) : Reached (ps ++ [p]) b := by
  have hmoves := moves_of_step hstep
  have hrun : empty.run (ps ++ [p]) = .ok b := by
    rw [run_append h.run, run_cons_of_ok hstep]
    rfl
  have hoffset : b.offset = (textOf (ps ++ [p])).length := by
    rw [hmoves.offset_eq, h.offset, textOf_append, List.length_append, textOf, textOf,
      List.flatMap_singleton]
  have hblocks : openBlocks (ps ++ [p]) = some b.levels.length := by
    rw [openBlocks_concat, h.blocks]
    exact hmoves.blocksAfter_eq
  refine ⟨hrun, hoffset, hblocks, ?_⟩
  -- a barrier ends everything that was read before it
  have hbarrier (hp : p.isInert = false) (hhead : b.head = []) : Divided (ps ++ [p]) b := by
    have hwhole : Whole (ps ++ [p]) := ⟨Or.inr ⟨ps, p, rfl, hp⟩, b, hrun, hhead⟩
    refine ⟨ps ++ [p], [], ?_, hwhole, by simp, fun hne => absurd hhead hne⟩
    rw [hhead, List.reverse_nil, List.append_nil, List.append_nil]
  obtain ⟨done, blanks, hps, hwhole, hblanks, hstart⟩ := h.divided
  cases hmoves with
  | @skip s hhead =>
    refine ⟨done, blanks ++ [.blank s], ?_, hwhole, ?_, fun hne => absurd hhead hne⟩
    · rw [hps, skip, hhead]
      simp
    · intro q hq
      rcases List.mem_append.mp hq with hq | hq
      · exact hblanks q hq
      · obtain rfl := List.mem_singleton.mp hq
        rfl
  | push =>
    refine ⟨done, blanks, ?_, hwhole, hblanks, fun _ => ?_⟩
    · rw [hps, push, List.reverse_cons]
      simp
    · rw [push]
      dsimp only
      split
      · next hempty =>
        rw [h.offset, hps, List.isEmpty_iff.mp hempty, List.reverse_nil, List.append_nil]
      · next hne => exact hstart fun hnil => hne (List.isEmpty_iff.mpr hnil)
  | statement => exact hbarrier rfl rfl
  | openBlock => exact hbarrier rfl rfl
  | closeBlock => exact hbarrier rfl rfl

theorem reached_of_run {ps : List Piece} {a : Assembly} (h : empty.run ps = .ok a) : Reached ps a :=
  run_induction (fun _ _ _ _ => Reached.step) reached_empty h

/-- An item without a colon is reported where it begins. -/
theorem Reached.malformed {w : List Char} {ps qs : List Piece} {a : Assembly} {cause : ParseCause}
    (h : Reached ps a) (hw : pieces w = ps ++ qs) (hcause : ofHead a.head none = .error cause) :
    Malformed w cause.message (w.take a.start) := by
  obtain ⟨rfl, hne, hcolon⟩ := missingColon_of_ofHead hcause
  obtain ⟨done, blanks, hps, hwhole, hblanks, hstart⟩ := h.divided
  obtain ⟨trailing, hhead, -⟩ := exists_blanks_of_headPieces a.head
  have hheadne : a.head ≠ [] := by
    intro hnil
    rw [hnil] at hne
    exact hne rfl
  rw [hps, List.append_assoc, List.append_assoc] at hw
  have hafter : textOf (a.head.reverse ++ qs) =
      textOf (headPieces a.head) ++ (textOf trailing ++ textOf qs) := by
    rw [hhead, textOf_append, textOf_append, List.append_assoc]
  have hstarts := trim_prefix_trimStart hne (textOf trailing ++ textOf qs)
  rw [← hafter] at hstarts
  have hafterne : textOf (a.head.reverse ++ qs) ≠ [] := by
    intro hnil
    rw [hnil] at hstarts
    exact hne (List.prefix_nil.mp hstarts)
  have htext : w = textOf (done ++ blanks) ++ textOf (a.head.reverse ++ qs) := by
    rw [← textOf_append, List.append_assoc, ← hw, textOf_pieces]
  have hbefore := hwhole.exists_parse hw hblanks hafterne
  rw [hstart hheadne]
  nth_rewrite 2 [htext]
  rw [List.take_left]
  refine .missingColon htext hbefore ?_ ?_ ?_ ?_
  · rwa [String.toList_ofList]
  · exact fun hempty => hne (String.ofList_eq_empty_iff.mp hempty)
  · rw [String.toList_ofList, trim_trim]
  · rwa [String.toList_ofList]

/-- A closing brace that closes no block is reported just after it. -/
theorem Reached.malformed_brace {w : List Char} {ps qs : List Piece} {a : Assembly}
    (h : Reached ps a) (hw : pieces w = ps ++ .closeBlock :: qs) (hlevels : a.levels = []) :
    Malformed w ParseCause.strayBrace.message (w.take (a.offset + 1)) := by
  have htext : w = textOf ps ++ '\x7d' :: textOf qs := by
    calc w
      _ = textOf (ps ++ .closeBlock :: qs) := by rw [← hw, textOf_pieces]
      _ = textOf ps ++ '\x7d' :: textOf qs := textOf_append ps (.closeBlock :: qs)
  have htake : w.take (a.offset + 1) = textOf ps ++ ['\x7d'] := by
    rw [h.offset, htext, List.take_length_add_append]
    rfl
  have hopen := h.blocks
  rw [hlevels] at hopen
  rw [htake]
  exact .strayBrace htext hw rfl hopen

end Item.Assembly

/-- What stops the assembly of a text is one of the two ways to fail, and no token that is left
over. -/
theorem malformed_of_assemble {w : List Char} {stop : Stop}
    (h : assemble (pieces w) = .error stop) :
    Malformed w stop.cause.message (w.take stop.offset) ∧
      ∀ token, stop.cause ≠ .leftover token := by
  have hstatement {head : List Piece} {cause : ParseCause}
    (hcause : ofHead head none = .error cause)
      (token : String) : cause ≠ .leftover token := by
    rw [(missingColon_of_ofHead hcause).1]
    nofun
  unfold assemble at h
  cases hrun : Assembly.empty.run (pieces w) with
  | error stop' =>
    rw [hrun] at h
    obtain rfl : stop' = stop := Except.error.inj h
    obtain ⟨ps, p, qs, a, hw, hps, hstops⟩ := Assembly.exists_of_run_error hrun
    have hreached := Assembly.reached_of_run hps
    cases hstops with
    | strayBrace hlevels => exact ⟨hreached.malformed_brace hw hlevels, nofun⟩
    | statement hcause => exact ⟨hreached.malformed hw hcause, hstatement hcause⟩
  | ok a =>
    rw [hrun] at h
    obtain ⟨cause, hcause, rfl⟩ := Assembly.stops_of_close h
    have hreached := Assembly.reached_of_run hrun
    exact ⟨hreached.malformed (List.append_nil _).symm hcause, hstatement hcause⟩

/-- A text that is not parsed stops the assembly. -/
theorem exists_stop_of_parse {text : String} {e : Fault} (h : parse text = .error e) :
    ∃ stop, assemble (pieces text.toList) = .error stop ∧
      e = .parse stop.cause (locate text.toList stop.offset) := by
  unfold parse at h
  split at h
  · cases h
  · next stop hstop => exact ⟨stop, hstop, (Except.error.inj h).symm⟩

/-- A text that is not parsed is malformed in one of two ways, and the fault says which, and where.
Either a closing brace closes no open block, and the place is just after it; or an item has neither
a block nor a colon, and the place is before the item, with at most blanks between them, and such
that the text before it is parsed.

The reader by descent, which checks after each block and bracket that nothing in it is left over,
comes to the same result, and for no text is that a token that is left over. -/
theorem malformed_of_parse (text : String) :
    (∀ e, parse text = .error e → ∃ cause position before, e = .parse cause position ∧
      EndsAt before position ∧ Malformed text.toList cause.message before) ∧
    ∀ steps, text.toList.length < steps →
      let o := (Descent.items text.toList steps none).run ⟨text.toList, []⟩
      o.result = parse text ∧
        ∀ token position, o.result ≠ .error (.parse (.leftover token) position) := by
  refine ⟨fun e h => ?_, fun steps hsteps => ?_⟩
  · obtain ⟨stop, hstop, rfl⟩ := exists_stop_of_parse h
    exact ⟨_, _, _, rfl, endsAt_after _, (malformed_of_assemble hstop).1⟩
  · have hresult := Descent.result_items text hsteps
    refine ⟨hresult, fun token position hleftover => ?_⟩
    obtain ⟨stop, hstop, he⟩ := exists_stop_of_parse (hresult.symm.trans hleftover)
    exact (malformed_of_assemble hstop).2 token (Fault.parse.inj he).1.symm

/-- A text with an item without a colon in the second line, after a block, a comment and a no-break
space, and with a brace in a string and a brace too many after the item. -/
def unmatched : String :=
  "@media x \x7b\r\n  a \x7b b: \"\x7d\" \x7d /* c; */ \u00a0oops \x7d \x7d"

/-- The item is reported, and neither the brace in the string nor the one after it, nor anything
that a block leaves over. -/
theorem malformed_of_parse_unmatched :
    parse unmatched = .error (.parse (.missingColon "oops") ⟨2, 25⟩) ∧
      (∃ before, EndsAt before ⟨2, 25⟩ ∧
        Malformed unmatched.toList "expected ':' in declaration 'oops'" before) ∧
      ((Descent.items unmatched.toList 50 none).run ⟨unmatched.toList, []⟩).result =
        .error (.parse (.missingColon "oops") ⟨2, 25⟩) := by
  have hparse : parse unmatched = .error (.parse (.missingColon "oops") ⟨2, 25⟩) := rfl
  obtain ⟨hmalformed, hread⟩ := malformed_of_parse unmatched
  obtain ⟨cause, position, before, he, hends, hbefore⟩ := hmalformed _ hparse
  cases he
  exact ⟨hparse, ⟨before, hends, hbefore⟩, (hread 50 (by decide)).1.trans hparse⟩

end StyleTree.Css
