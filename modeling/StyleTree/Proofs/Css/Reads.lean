import StyleTree.Css.Parse
import StyleTree.Proofs.Css.Head

/-!
# Reading in place

What reading a text adds to the items read before does not depend on where the text stands.

* `Reads x items`: where an item may begin, reading the text adds the items and nothing else,
  whatever the text is followed by.  Reading is compositional in this form, so that texts are read
  one after the other (`Reads.append`) and one inside the other (`SpellsAt.reads_block`).
* `Reads.parse_eq_ok`: a text that is read in place is parsed.
-/

namespace StyleTree.Css

open StyleTree.Text Item

/-- Where an item may begin, reading the text adds the items to those read before, and leaves the
reader where an item may begin.  Only the count of characters depends on more. -/
def Reads (x : List Char) (new : List Spec) : Prop :=
  ∀ (o start : Nat) (items : List Spec) (levels : List Level) (rest : List Char), ∃ o' start',
    (Assembly.mk o start [] items levels).run (pieces (x ++ rest)) =
      (Assembly.mk o' start' [] (new.reverse ++ items) levels).run (pieces rest)

theorem Reads.nil : Reads [] [] := fun o start _ _ _ => ⟨o, start, rfl⟩

theorem Reads.append {x y : List Char} {new new' : List Spec} (hx : Reads x new)
    (hy : Reads y new') : Reads (x ++ y) (new ++ new') := by
  intro o start items levels rest
  obtain ⟨o₁, start₁, h₁⟩ := hx o start items levels (y ++ rest)
  obtain ⟨o₂, start₂, h₂⟩ := hy o₁ start₁ (new.reverse ++ items) levels rest
  refine ⟨o₂, start₂, ?_⟩
  rw [List.append_assoc, h₁, h₂, List.reverse_append, List.append_assoc]

theorem run_cons_of_ok {a b : Assembly} {p : Piece} (h : a.step p = .ok b) (ps : List Piece) :
    a.run (p :: ps) = b.run ps := by
  rw [Assembly.run, h]
  rfl

/-- Separators where an item may begin are only counted. -/
theorem run_separators (o start : Nat) (items : List Spec) (levels : List Level) (s : List Char) :
    (Assembly.mk o start [] items levels).run (pieces s) =
      (Assembly.mk (o + (s.takeWhile isSeparator).length) start [] items levels).run
        (pieces (s.dropWhile isSeparator)) := by
  cases s with
  | nil => rfl
  | cons c s =>
    by_cases hc : isSeparator c = true
    · have hread : Token.read c s = (.blank, (s.takeWhile isSeparator).length) := by
        unfold Token.read
        rw [if_pos hc]
      have hdrop : s.drop (s.takeWhile isSeparator).length = s.dropWhile isSeparator := by
        have hsplit := List.takeWhile_append_dropWhile (p := isSeparator) (l := s)
        calc s.drop (s.takeWhile isSeparator).length
          _ = (s.takeWhile isSeparator ++ s.dropWhile isSeparator).drop
              (s.takeWhile isSeparator).length := by rw [hsplit]
          _ = s.dropWhile isSeparator := List.drop_left
      have hpieces : pieces (c :: s) =
          .blank (c :: s.takeWhile isSeparator) :: pieces (s.dropWhile isSeparator) := by
        rw [pieces, tokens_cons, hread]
        dsimp only
        rw [← List.prefix_iff_eq_take.mp (List.takeWhile_prefix _), hdrop]
        rfl
      rw [hpieces, List.takeWhile_cons_of_pos hc, List.dropWhile_cons_of_pos hc]
      exact run_cons_of_ok rfl _
    · rw [List.takeWhile_cons_of_neg hc, List.dropWhile_cons_of_neg hc]
      rfl

theorem reads_separators {s : List Char} (hs : ∀ c ∈ s, isSeparator c = true) : Reads s [] := by
  intro o start items levels rest
  refine ⟨o + s.length, start, ?_⟩
  rw [run_separators, run_separators (o + s.length), List.takeWhile_append_of_pos hs,
    List.dropWhile_append_of_pos hs, List.length_append, Nat.add_assoc]
  rfl

/-- After the first piece of a head, inert pieces are added to it. -/
theorem run_inert {ps : List Piece} (hps : ∀ p ∈ ps, p.isInert = true) (o start : Nat)
    {head : List Piece} (hhead : head ≠ []) (items : List Spec) (levels : List Level)
    (qs : List Piece) :
    ∃ o', (Assembly.mk o start head items levels).run (ps ++ qs) =
      (Assembly.mk o' start (ps.reverse ++ head) items levels).run qs := by
  induction ps generalizing o head with
  | nil => exact ⟨o, rfl⟩
  | cons p ps ih =>
    have hempty : head.isEmpty = false := by simpa using hhead
    have hstep : (Assembly.mk o start head items levels).step p =
        .ok (Assembly.mk (o + p.text.length) start (p :: head) items levels) := by
      have hpush : (Assembly.mk o start head items levels).push p =
          Assembly.mk (o + p.text.length) start (p :: head) items levels := by
        unfold Assembly.push
        simp [hempty]
      have hp := hps p (List.mem_cons_self ..)
      cases p with
      | blank =>
        rw [← hpush]
        simp [Assembly.step, hempty]
      | keyword => rw [← hpush]; rfl
      | chunk => rw [← hpush]; rfl
      | semicolon | openBlock | closeBlock => exact absurd hp (by simp [Piece.isInert])
    obtain ⟨o', h⟩ := ih (fun q hq => hps q (List.mem_cons_of_mem _ hq)) (o + p.text.length)
      (List.cons_ne_nil p head)
    refine ⟨o', ?_⟩
    rw [List.cons_append, run_cons_of_ok hstep, h, List.reverse_cons, List.append_assoc]
    rfl

/-- Inert pieces that do not begin with a blank become the head of the next item. -/
theorem run_head {ps : List Piece} (hps : ∀ p ∈ ps, p.isInert = true)
    (hfirst : ∀ p, ps.head? = some p → p.isBlank = false) (o start : Nat) (items : List Spec)
    (levels : List Level) (qs : List Piece) :
    ∃ o' start', (Assembly.mk o start [] items levels).run (ps ++ qs) =
      (Assembly.mk o' start' ps.reverse items levels).run qs := by
  cases ps with
  | nil => exact ⟨o, start, rfl⟩
  | cons p ps =>
    have hstep : (Assembly.mk o start [] items levels).step p =
        .ok (Assembly.mk (o + p.text.length) o [p] items levels) := by
      have hp := hps p (List.mem_cons_self ..)
      have hblank := hfirst p rfl
      cases p with
      | blank => exact absurd hblank (by simp [Piece.isBlank])
      | keyword => rfl
      | chunk => rfl
      | semicolon | openBlock | closeBlock => exact absurd hp (by simp [Piece.isInert])
    obtain ⟨o', h⟩ := run_inert (fun q hq => hps q (List.mem_cons_of_mem _ hq))
      (o + p.text.length) o (List.cons_ne_nil p []) items levels qs
    refine ⟨o', o, ?_⟩
    rw [List.cons_append, run_cons_of_ok hstep, h, List.reverse_cons]

section Items

variable {u x : List Char} {item : Option (List Spec) → Except ParseCause (Option Spec)}
  {spec : Spec} {children : List Spec}

/-- A head and a semicolon are read as a statement. -/
theorem SpellsAt.reads_statement (h : SpellsAt ';' u item) (hitem : item none = .ok (some spec)) :
    Reads (u ++ [';']) [spec] := by
  intro o start items levels rest
  obtain ⟨ps, hps, hinert, hfirst, hof⟩ := h rest
  have hsemicolon : pieces (';' :: rest) = .semicolon :: pieces rest := by
    rw [pieces, tokens_cons]
    rfl
  obtain ⟨o', start', hrun⟩ := run_head hinert hfirst o start items levels (pieces (';' :: rest))
  refine ⟨o' + 1, start', ?_⟩
  rw [List.append_assoc, List.singleton_append, hps, hrun, hsemicolon]
  refine run_cons_of_ok ?_ _
  show (do return (← Assembly.endStatement _).skip 1 : Except Stop Assembly) = _
  unfold Assembly.endStatement
  rw [hof, hitem]
  rfl

/-- A head and a block are read as an item with the items of the block. -/
theorem SpellsAt.reads_block (h : SpellsAt '\x7b' u item)
    (hitem : item (some children) = .ok (some spec)) (hx : Reads x children) :
    Reads (u ++ '\x7b' :: x ++ ['\x7d']) [spec] := by
  intro o start items levels rest
  obtain ⟨ps, hps, hinert, hfirst, hof⟩ := h (x ++ '\x7d' :: rest)
  have hopen : ∀ s, pieces ('\x7b' :: s) = .openBlock :: pieces s := by
    intro s
    rw [pieces, tokens_cons]
    rfl
  have hclose : pieces ('\x7d' :: rest) = .closeBlock :: pieces rest := by
    rw [pieces, tokens_cons]
    rfl
  obtain ⟨o₁, start₁, hrun₁⟩ := run_head hinert hfirst o start items levels
    (pieces ('\x7b' :: (x ++ '\x7d' :: rest)))
  obtain ⟨o₂, start₂, hrun₂⟩ := hx (o₁ + 1) start₁ [] (⟨ps.reverse, items⟩ :: levels)
    ('\x7d' :: rest)
  refine ⟨o₂ + 1, start₂, ?_⟩
  have hsplit : u ++ '\x7b' :: x ++ ['\x7d'] ++ rest = u ++ '\x7b' :: (x ++ '\x7d' :: rest) := by
    simp
  rw [hsplit, hps, hrun₁, hopen, run_cons_of_ok (b := ⟨o₁ + 1, start₁, [], [], _⟩) rfl,
    hrun₂, hclose]
  refine run_cons_of_ok ?_ _
  rw [List.append_nil]
  show (do
    let a ← Assembly.endStatement _
    return (← a.endBlock ⟨ps.reverse, items⟩ levels).skip 1 : Except Stop Assembly) = _
  have hend :
      (Assembly.mk o₂ start₂ [] children.reverse (⟨ps.reverse, items⟩ :: levels)).endStatement =
      .ok ⟨o₂, start₂, [], children.reverse, ⟨ps.reverse, items⟩ :: levels⟩ := rfl
  rw [hend]
  show (do
    return (← Assembly.endBlock _ ⟨ps.reverse, items⟩ levels).skip 1 : Except Stop Assembly) = _
  unfold Assembly.endBlock
  rw [List.reverse_reverse, hof, hitem]
  rfl

end Items

/-- A text that is read from the beginning to the end is parsed. -/
theorem Reads.parse_eq_ok {text : String} {items : List Spec} (h : Reads text.toList items) :
    parse text = .ok items := by
  obtain ⟨o, start, hrun⟩ := h 0 0 [] [] []
  rw [List.append_nil, List.append_nil] at hrun
  have hassemble : assemble (pieces text.toList) = .ok items := by
    show (do
      let a ← Assembly.empty.run (pieces text.toList)
      a.close a.levels : Except Stop (List Spec)) = _
    rw [Assembly.empty, hrun]
    show Except.ok items.reverse.reverse = _
    rw [List.reverse_reverse]
  unfold parse
  rw [hassemble]

end StyleTree.Css
