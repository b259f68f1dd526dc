import StyleTree.Proofs.Action
import StyleTree.Proofs.Css.Layout

/-!
# Reading by descent

Items are assembled with a stack of open blocks, one piece after the other, so there is nothing to
ask about how this ends.  The same grammar can be read by descent: a loop over the items of a block,
which calls itself for the block of an item, and which calls a second loop for what stands in
parentheses and square brackets.  Such a reader ends only if each round of a loop takes something
from the text, and it would hang on a malformed text if one did not.

This module writes the reader down, with a bound on its steps, and with marks on the way that say
where it has been.  A place in the text is the text from there on.  Whatever reads the inside of a
block or bracket has to read all of it: a token that it leaves over is a fault.

* `Mark`: a round of the loop over items, a block or bracket that is entered, and one that is left.
* `items`: the reader.  It fails as `unfinished` if it runs out of steps.
* `entirely`, `expectEnd`: reading up to the end, and the fault of a token that is left over.
* `Mark.Advances`: a round ends strictly later than it began; the inside of a block or bracket
  begins strictly later than the item that it belongs to; and what is outside goes on where reading
  the inside ended, or later.
* `advances_of_mem_marks`: every mark advances, whatever the text is and however many steps are
  allowed.
-/

namespace StyleTree.Css.Descent

open StyleTree.Text StyleTree.Action

/-- What is noted on the way. -/
inductive Mark where
  /-- One round of the loop over items, whether an item is read or not: where it begins and where it
  ends. -/
  | round (before after : List Char)
  /-- A block or bracket is entered: where its item begins, and where its inside begins. -/
  | enter (item inside : List Char)
  /-- A block or bracket is left: where reading the inside ended, and where reading the outside goes
  on. -/
  | leave (reached outside : List Char)
deriving DecidableEq, Repr

/-- The text from the present place on, and the marks so far, the last first. -/
structure Cursor where
  rest : List Char
  marks : List Mark

/-! ## The reader -/

/-- The present place. -/
def rest : Action Cursor (List Char) := do
  return (← Action.get).rest

/-- Another place. -/
def moveTo (s : List Char) : Action Cursor Unit :=
  Action.modify fun c => { c with rest := s }

/-- A mark. -/
def mark (m : Mark) : Action Cursor Unit :=
  Action.modify fun c => { c with marks := m :: c.marks }

/-- The text without the separators and comments it starts with, after characters that belong to
one. -/
def skipBlanksFrom : Nat → List Char → List Char
  | _, [] => []
  | k + 1, _ :: s => skipBlanksFrom k s
  | 0, c :: s => if (Token.read c s).1 = .blank then skipBlanksFrom (Token.read c s).2 s else c :: s

/-- The text without the separators and comments it starts with. -/
def skipBlanks (s : List Char) : List Char :=
  skipBlanksFrom 0 s

/-- The text after the brackets that are open are closed, after characters that belong to a
token. -/
def closeFrom : Nat → List Bracket → List Char → List Char
  | _, _, [] => []
  | k + 1, stack, _ :: s => closeFrom k stack s
  | 0, [], s => s
  | 0, b :: bs, c :: s => closeFrom (Token.read c s).2 (Piece.nest (b :: bs) (Token.read c s).1) s

/-- The text after the brackets that are open, the innermost first, are closed: what is opened on
the way is closed on the way, and what closes no open bracket is passed over. -/
def close (stack : List Bracket) (s : List Char) : List Char :=
  closeFrom 0 stack s

/-- Whether the text ends here, or else the bracket that is being read. -/
def atEnd (stop : Option Bracket) : List Char → Bool
  | [] => true
  | c :: s => stop.any fun b => (Token.read c s).1 = .closing b

/-- The next token that is not blank, unless the end comes first. -/
def next (stop : Option Bracket) : Action Cursor (Option Token.Kind) := do
  let s := skipBlanks (← rest)
  moveTo s
  if atEnd stop s then return none
  match s with
  | [] => return none
  | c :: s =>
    moveTo (s.drop (Token.read c s).2)
    return some (Token.read c s).1

/-- The tokens inside a bracket, one after the other; a bracket among them is passed over as a
whole. -/
def skipBlock (b : Bracket) : Nat → Action Cursor Unit
  | 0 => Action.fail .unfinished
  | n + 1 => do
    match ← next (some b) with
    | none => pure ()
    | some (.opening b') =>
      moveTo (close [b'] (← rest))
      skipBlock b n
    | some _ => skipBlock b n

/-- The head of an item, as far as it is read. -/
structure Head where
  /-- Where the item begins. -/
  start : List Char
  /-- Where the last token of the head ends. -/
  stop : List Char
  /-- Whether there is no token yet. -/
  first : Bool
  /-- The at-keyword that the head begins with, and where it ends. -/
  keyword : Option (List Char × List Char)

namespace Head

/-- A head without tokens. -/
def begin (s : List Char) : Head := ⟨s, s, true, none⟩

/-- The head with one more token. -/
def extend (h : Head) (s : List Char) : Head :=
  { h with stop := s, first := false }

/-- The head with one more at-keyword.  Only the first token makes an at-rule. -/
def extendKeyword (h : Head) (name s : List Char) : Head :=
  { h.extend s with keyword := if h.first then some (name, s) else h.keyword }

/-- The text between two places. -/
def between (s r : List Char) : List Char :=
  s.take (s.length - r.length)

/-- The item with a head and a body. -/
def item (h : Head) (body : Option (List Spec)) : Except ParseCause (Option Spec) :=
  match h.keyword with
  | some (name, s) =>
    .ok (some (.atRule (String.ofList name) (String.ofList (trim (between s h.stop))) body))
  | none => itemOf (trim (between h.start h.stop)) body

end Head

section Reader

variable (text : List Char) {α : Type}

/-- The fault with a cause at a place. -/
def faultAt (cause : ParseCause) (s : List Char) : Fault :=
  .parse cause (locate text (text.length - s.length))

/-- The text of the first token. -/
def firstToken : List Char → List Char
  | [] => []
  | c :: s => c :: s.take (Token.read c s).2

/-- The fault of a token that is left over at a place, after blanks. -/
def leftoverAt (s : List Char) : Fault :=
  faultAt text (.leftover (String.ofList (firstToken (skipBlanks s)))) s

/-- Fails if there is a token before the end.  It is looked for and not taken. -/
def expectEnd (stop : Option Bracket) : Action Cursor Unit := do
  let here ← rest
  let token ← next stop
  moveTo here
  if token.isSome then Action.fail (leftoverAt text here)

/-- What `inner` reads, which must be everything up to the end. -/
def entirely (stop : Option Bracket) (inner : Action Cursor α) : Action Cursor α := do
  let a ← inner
  expectEnd text stop
  return a

/-- What is inside a bracket read by `inner`, which must read all of it, and the bracket closed. -/
def nested (b : Bracket) (item : List Char) (inner : Action Cursor α) : Action Cursor α := do
  mark (.enter item (← rest))
  let result ← (entirely text (some b) inner).attempt
  let reached ← rest
  moveTo (close [b] reached)
  mark (.leave reached (close [b] reached))
  Action.ofExcept result

/-- What a token does to a head: it ends the head, with a block or without one, or it belongs to the
head, and then `more` reads the rest.  There are `n` steps for what is inside a bracket. -/
def headStep (n : Nat) (more : Head → Action Cursor (Head × Bool)) (h : Head) :
    Option Token.Kind → Action Cursor (Head × Bool)
  | none | some .semicolon => return (h, false)
  | some (.opening .curly) => return (h, true)
  | some (.closing .curly) => do Action.fail (faultAt text .strayBrace (← rest))
  | some (.atKeyword name) => do more (h.extendKeyword name (← rest))
  | some (.opening b) => do
    nested text b h.start (skipBlock b n)
    more (h.extend (← rest))
  | some _ => do more (h.extend (← rest))

/-- The rest of a head, and whether a block follows. -/
def readHead (stop : Option Bracket) : Nat → Head → Action Cursor (Head × Bool)
  | 0, _ => Action.fail .unfinished
  | n + 1, h => do headStep text n (readHead stop n) h (← next stop)

/-- The block of an item that begins at a place, if there is one, read by `inner`. -/
def readBody (start : List Char) (inner : Action Cursor (List Spec)) :
    Bool → Action Cursor (Option (List Spec))
  | true => some <$> nested text .curly start inner
  | false => pure none

/-- One item, or none for a statement without text, its block read by `inner`.  An item that cannot
be made of its head is a fault where it begins. -/
def readItem (stop : Option Bracket) (n : Nat) (inner : Action Cursor (List Spec)) :
    Action Cursor (Option Spec) := do
  let (head, block) ← readHead text stop n (.begin (← rest))
  let body ← readBody text head.start inner block
  Action.ofExcept ((head.item body).mapError fun cause => faultAt text cause head.start)

/-- One round of the loop over items. -/
def round (item : Action Cursor (Option Spec)) : Action Cursor (Option Spec) := do
  let before ← rest
  let result ← item.attempt
  mark (.round before (← rest))
  Action.ofExcept result

/-- The items up to the end of the text, or of the block that is being read. -/
def items : Nat → Option Bracket → Action Cursor (List Spec)
  | 0, _ => Action.fail .unfinished
  | n + 1, stop => do
    moveTo (skipBlanks (← rest))
    if atEnd stop (← rest) then return []
    let item ← round (readItem text stop (n + 1) (items n (some .curly)))
    return item.toList ++ (← items n stop)

end Reader

/-! ## What the parts of the reader yield -/

section Parts

variable {c c' : Cursor} {s r : List Char} {b : Bracket} {stop : Option Bracket}

@[simp] theorem yields_rest {Q : List Char → Cursor → Prop} {E : Fault → Cursor → Prop} :
    rest.Yields c Q E ↔ Q c.rest c :=
  Iff.rfl

@[simp] theorem yields_moveTo {Q : Unit → Cursor → Prop} {E : Fault → Cursor → Prop} :
    (moveTo s).Yields c Q E ↔ Q () { c with rest := s } :=
  Iff.rfl

@[simp] theorem yields_mark {m : Mark} {Q : Unit → Cursor → Prop} {E : Fault → Cursor → Prop} :
    (mark m).Yields c Q E ↔ Q () { c with marks := m :: c.marks } :=
  Iff.rfl

theorem yields_round {item : Action Cursor (Option Spec)} {Q : Option Spec → Cursor → Prop}
    {E : Fault → Cursor → Prop} :
    (round item).Yields c Q E ↔
      item.Yields c (fun a c' => Q a { c' with marks := .round c.rest c'.rest :: c'.marks })
        (fun e c' => E e { c' with marks := .round c.rest c'.rest :: c'.marks }) := by
  unfold round
  rw [yields_bind, yields_rest, yields_bind, yields_attempt]
  exact Iff.rfl

theorem skipBlanksFrom_eq_drop (k : Nat) (s : List Char) :
    skipBlanksFrom k s = skipBlanks (s.drop k) := by
  induction k generalizing s with
  | zero => rfl
  | succ k ih =>
    cases s with
    | nil => rfl
    | cons c s => exact ih s

theorem skipBlanks_cons (c : Char) (s : List Char) : skipBlanks (c :: s) =
    if (Token.read c s).1 = .blank then skipBlanks (s.drop (Token.read c s).2) else c :: s := by
  rw [skipBlanks, skipBlanksFrom, skipBlanksFrom_eq_drop]

theorem closeFrom_eq_drop (k : Nat) (stack : List Bracket) (s : List Char) :
    closeFrom k stack s = close stack (s.drop k) := by
  induction k generalizing s with
  | zero => rfl
  | succ k ih =>
    cases s with
    | nil => rfl
    | cons c s => exact ih s

@[simp] theorem close_nil_left (s : List Char) : close [] s = s := by
  cases s <;> rfl

@[simp] theorem close_nil_right (stack : List Bracket) : close stack [] = [] := by
  cases stack <;> rfl

theorem close_cons (b : Bracket) (bs : List Bracket) (c : Char) (s : List Char) :
    close (b :: bs) (c :: s) =
      close (Piece.nest (b :: bs) (Token.read c s).1) (s.drop (Token.read c s).2) := by
  rw [close, closeFrom, closeFrom_eq_drop]

theorem drop_suffix_cons (n : Nat) (c : Char) (s : List Char) : s.drop n <:+ c :: s :=
  (List.drop_suffix n s).trans (List.suffix_cons c s)

theorem skipBlanks_suffix (s : List Char) : skipBlanks s <:+ s := by
  induction hlen : s.length using Nat.strong_induction_on generalizing s with
  | _ m ih =>
    cases s with
    | nil => exact List.suffix_rfl
    | cons c s =>
      rw [skipBlanks_cons]
      split
      · rw [List.length_cons] at hlen
        exact (ih _ (by rw [List.length_drop]; omega) _ rfl).trans (drop_suffix_cons _ c s)
      · exact List.suffix_rfl

theorem close_suffix (stack : List Bracket) (s : List Char) : close stack s <:+ s := by
  induction hlen : s.length using Nat.strong_induction_on generalizing stack s with
  | _ m ih =>
    cases stack with
    | nil =>
      rw [close_nil_left]
    | cons b bs =>
      cases s with
      | nil => exact List.suffix_rfl
      | cons c s =>
        rw [close_cons]
        rw [List.length_cons] at hlen
        exact (ih _ (by rw [List.length_drop]; omega) _ _ rfl).trans (drop_suffix_cons _ c s)

theorem skipBlanks_skipBlanks (s : List Char) : skipBlanks (skipBlanks s) = skipBlanks s := by
  induction hlen : s.length using Nat.strong_induction_on generalizing s with
  | _ m ih =>
    cases s with
    | nil => rfl
    | cons c s =>
      rw [skipBlanks_cons]
      split
      · rw [List.length_cons] at hlen
        exact ih _ (by rw [List.length_drop]; omega) _ rfl
      · next hblank => rw [skipBlanks_cons, if_neg hblank]

/-- What the next token is, and where it ends. -/
inductive Next (stop : Option Bracket) (s : List Char) : Option Token.Kind → List Char → Prop
  | done (h : atEnd stop (skipBlanks s) = true) : Next stop s none (skipBlanks s)
  | token {c : Char} {r : List Char} (h : skipBlanks s = c :: r)
      (hend : atEnd stop (c :: r) = false) :
      Next stop s (some (Token.read c r).1) (r.drop (Token.read c r).2)

theorem yields_next {Q : Option Token.Kind → Cursor → Prop} {E : Fault → Cursor → Prop} :
    (next stop).Yields c Q E ↔ ∀ k r, Next stop c.rest k r → Q k { c with rest := r } := by
  unfold next
  simp only [yields_bind, yields_rest, yields_moveTo]
  cases hend : atEnd stop (skipBlanks c.rest) with
  | true =>
    constructor
    · rintro h _ _ (_ | ⟨hs, hnot⟩)
      · exact h
      · rw [hs, hnot] at hend
        cases hend
    · exact fun h => h _ _ (.done hend)
  | false =>
    cases hs : skipBlanks c.rest with
    | nil =>
      rw [hs] at hend
      cases hend
    | cons x s =>
      rw [hs] at hend
      constructor
      · rintro h _ _ (hdone | ⟨hs', -⟩)
        · rw [hs, hend] at hdone
          cases hdone
        · cases hs.symm.trans hs'
          exact h
      · exact fun h => h _ _ (.token hs hend)

variable {α : Type} {text : List Char} {inner : Action Cursor α}

/-- Looking for the end moves nowhere, and fails exactly if it is not the end. -/
theorem yields_expectEnd {Q : Unit → Cursor → Prop} {E : Fault → Cursor → Prop} :
    (expectEnd text stop).Yields c Q E ↔
      (atEnd stop (skipBlanks c.rest) = true → Q () c) ∧
        (atEnd stop (skipBlanks c.rest) = false → E (leftoverAt text c.rest) c) := by
  unfold expectEnd
  rw [yields_bind, yields_rest, yields_bind, yields_next]
  constructor
  · refine fun h => ⟨fun hend => h _ _ (.done hend), fun hnot => ?_⟩
    cases hs : skipBlanks c.rest with
    | nil =>
      rw [hs] at hnot
      cases hnot
    | cons x s =>
      rw [hs] at hnot
      exact h _ _ (.token hs hnot)
  · rintro ⟨hdone, hmore⟩ _ _ (hend | ⟨hs, hnot⟩)
    · exact hdone hend
    · rw [hs] at hmore
      exact hmore hnot

/-- Everything is read if reading succeeds and only blanks are left; a token that is left over is a
failure. -/
theorem yields_entirely {Q : α → Cursor → Prop} {E : Fault → Cursor → Prop} :
    (entirely text stop inner).Yields c Q E ↔
      inner.Yields c
        (fun a c' => (atEnd stop (skipBlanks c'.rest) = true → Q a c') ∧
          (atEnd stop (skipBlanks c'.rest) = false → E (leftoverAt text c'.rest) c')) E := by
  unfold entirely
  rw [yields_bind]
  refine Yields.congr (fun a c' => ?_) fun _ _ => Iff.rfl
  rw [yields_bind, yields_expectEnd]
  exact Iff.rfl

/-- A bracket is left from where reading the inside ended, whether that succeeded or not. -/
theorem yields_nested {item : List Char} {Q : α → Cursor → Prop} {E : Fault → Cursor → Prop} :
    (nested text b item inner).Yields c Q E ↔
      (entirely text (some b) inner).Yields { c with marks := .enter item c.rest :: c.marks }
        (fun a c' => Q a ⟨close [b] c'.rest, .leave c'.rest (close [b] c'.rest) :: c'.marks⟩)
        (fun e c' => E e ⟨close [b] c'.rest, .leave c'.rest (close [b] c'.rest) :: c'.marks⟩) := by
  unfold nested
  rw [yields_bind, yields_rest, yields_bind, yields_mark, yields_bind, yields_attempt]
  exact Iff.rfl

theorem atEnd_skipBlanks (h : atEnd stop s = true) : atEnd stop (skipBlanks s) = true := by
  cases s with
  | nil => exact h
  | cons x s =>
    rw [skipBlanks_cons, if_neg]
    · exact h
    · intro hblank
      rw [atEnd, hblank] at h
      simp at h

/-- If reading comes to the end of the bracket, nothing is left over. -/
theorem yields_nested_of_atEnd {item : List Char} {Q : α → Cursor → Prop}
    {E : Fault → Cursor → Prop}
    (h : inner.Yields { c with marks := .enter item c.rest :: c.marks }
      (fun a c' => atEnd (some b) c'.rest = true ∧
        Q a ⟨close [b] c'.rest, .leave c'.rest (close [b] c'.rest) :: c'.marks⟩)
      (fun e c' => E e ⟨close [b] c'.rest, .leave c'.rest (close [b] c'.rest) :: c'.marks⟩)) :
    (nested text b item inner).Yields c Q E := by
  rw [yields_nested, yields_entirely]
  refine h.mono (fun a c' ⟨hend, hQ⟩ => ⟨fun _ => hQ, fun hnot => ?_⟩) fun _ _ hE => hE
  exact absurd ((atEnd_skipBlanks hend).symm.trans hnot) (by simp)

-- what is not read to its end is reported with the first token that is left, where reading ended
example :
    ((nested ['(', ' ', 'a', ')'] .round [] (pure ())).run ⟨[' ', 'a', ')'], []⟩).result =
      .error (.parse (.leftover "a") ⟨1, 2⟩) := by
  decide +kernel

end Parts

/-! ## Places only move on -/

/-- A place strictly further on. -/
def Later (s r : List Char) : Prop :=
  r <:+ s ∧ r.length < s.length

/-- A round ends later than it began, the inside of a bracket begins later than its item, and the
outside goes on no earlier than where reading the inside ended. -/
def Mark.Advances : Mark → Prop
  | round before after => Later before after
  | enter item inside => Later item inside
  | leave reached outside => outside <:+ reached

/-- The second cursor is no earlier than the first, and the marks between them advance. -/
structure Cursor.Ahead (c c' : Cursor) : Prop where
  rest : c'.rest <:+ c.rest
  marks : (∀ m ∈ c.marks, m.Advances) → ∀ m ∈ c'.marks, m.Advances

section Ahead

variable {α β : Type} {c c' c'' : Cursor} {s r : List Char} {b : Bracket} {stop : Option Bracket}

theorem Later.of_suffix (h : Later s r) {r' : List Char} (hr : r' <:+ r) : Later s r' :=
  ⟨hr.trans h.1, Nat.lt_of_le_of_lt hr.length_le h.2⟩

theorem Later.suffix_left (h : Later s r) {s' : List Char} (hs : s <:+ s') : Later s' r :=
  ⟨h.1.trans hs, Nat.lt_of_lt_of_le h.2 hs.length_le⟩

namespace Cursor

theorem Ahead.refl (c : Cursor) : c.Ahead c := ⟨List.suffix_rfl, id⟩

theorem Ahead.trans (h : c.Ahead c') (h' : c'.Ahead c'') : c.Ahead c'' :=
  ⟨h'.rest.trans h.rest, h'.marks ∘ h.marks⟩

theorem Ahead.moveTo (h : c.Ahead c') (hr : r <:+ c'.rest) : c.Ahead { c' with rest := r } :=
  ⟨hr.trans h.rest, h.marks⟩

theorem Ahead.mark (h : c.Ahead c') {m : Mark} (hm : m.Advances) :
    c.Ahead { c' with marks := m :: c'.marks } := by
  refine ⟨h.rest, fun hc m' hm' => ?_⟩
  rcases List.mem_cons.mp hm' with rfl | hm'
  · exact hm
  · exact h.marks hc m' hm'

end Cursor

/-- An action that only moves on, in every outcome. -/
def Onward (x : Action Cursor α) : Prop :=
  ∀ c, x.Yields c (fun _ c' => c.Ahead c') (fun _ c' => c.Ahead c')

/-- What follows an action that has moved on. -/
theorem yields_ahead_bind {x : Action Cursor α} {f : α → Action Cursor β} {Q : α → Cursor → Prop}
    (hx : x.Yields c (fun a c' => c.Ahead c' ∧ Q a c') (fun _ c' => c.Ahead c'))
    (hf : ∀ a c', c.Ahead c' → Q a c' →
      (f a).Yields c' (fun _ c'' => c'.Ahead c'') (fun _ c'' => c'.Ahead c'')) :
    (x >>= f).Yields c (fun _ c'' => c.Ahead c'') (fun _ c'' => c.Ahead c'') := by
  rw [yields_bind]
  refine hx.mono (fun a c' h => ?_) fun _ _ h => h
  exact (hf a c' h.1 h.2).mono (fun _ _ h' => h.1.trans h') fun _ _ h' => h.1.trans h'

/-- A token is taken from the text, unless the end comes first. -/
theorem Next.suffix {k : Option Token.Kind} (h : Next stop s k r) :
    r <:+ s ∧ (k.isSome → Later s r) := by
  cases h with
  | done => exact ⟨skipBlanks_suffix s, by simp⟩
  | @token c t h =>
    have hs := skipBlanks_suffix s
    rw [h] at hs
    have hlater : Later s (t.drop (Token.read c t).2) := by
      refine Later.suffix_left ⟨drop_suffix_cons _ c t, ?_⟩ hs
      rw [List.length_drop, List.length_cons]
      omega
    exact ⟨hlater.1, fun _ => hlater⟩

theorem yields_next_ahead (c : Cursor) (stop : Option Bracket) {E : Fault → Cursor → Prop} :
    (next stop).Yields c (fun k c' => c.Ahead c' ∧ (k.isSome → Later c.rest c'.rest)) E := by
  rw [yields_next]
  intro k r h
  exact ⟨(Cursor.Ahead.refl c).moveTo h.suffix.1, h.suffix.2⟩

/-- A bracket moves on if reading its inside does. -/
theorem yields_nested_ahead {text : List Char} {inner : Action Cursor α} (hinner : Onward inner)
    {item : List Char} (hitem : Later item c.rest) :
    (nested text b item inner).Yields c (fun _ c' => c.Ahead c') (fun _ c' => c.Ahead c') := by
  have hleave (c' : Cursor)
      (h : Cursor.Ahead { c with marks := .enter item c.rest :: c.marks } c') :
      c.Ahead ⟨close [b] c'.rest, .leave c'.rest (close [b] c'.rest) :: c'.marks⟩ := by
    have hclose := close_suffix [b] c'.rest
    have henter := (Cursor.Ahead.refl c).mark (m := .enter item c.rest) hitem
    exact ((henter.trans h).moveTo hclose).mark (m := .leave c'.rest (close [b] c'.rest)) hclose
  rw [yields_nested, yields_entirely]
  exact (hinner _).mono (fun _ c' h => ⟨fun _ => hleave c' h, fun _ => hleave c' h⟩) fun _ c' h =>
    hleave c' h

theorem onward_skipBlock (b : Bracket) (n : Nat) : Onward (skipBlock b n) := by
  induction n with
  | zero => exact fun c => Cursor.Ahead.refl c
  | succ n ih =>
    intro c
    refine yields_ahead_bind (yields_next_ahead c _) fun k c' _ _ => ?_
    split
    · exact Cursor.Ahead.refl c'
    · next b' _ =>
      rw [yields_bind, yields_rest, yields_bind, yields_moveTo]
      have hmove := (Cursor.Ahead.refl c').moveTo (close_suffix [b'] c'.rest)
      exact (ih _).mono (fun _ _ h => hmove.trans h) fun _ _ h => hmove.trans h
    · exact ih c'

/-- A head that is read moves on, and a block after it begins later than the item. -/
def HeadAhead (start : List Char) (c : Cursor) (p : Head × Bool) (c' : Cursor) : Prop :=
  c.Ahead c' ∧ p.1.start = start ∧ (p.2 = true → Later start c'.rest)

theorem yields_headStep_ahead {text : List Char} {n : Nat}
    {more : Head → Action Cursor (Head × Bool)} {h : Head} (hlater : Later h.start c.rest)
    (hmore : ∀ h' c', h'.start = h.start → c.Ahead c' →
      (more h').Yields c' (HeadAhead h.start c') (fun _ c'' => c'.Ahead c'')) (k : Token.Kind) :
    (headStep text n more h (some k)).Yields c (HeadAhead h.start c) (fun _ c' => c.Ahead c') := by
  have hrefl := Cursor.Ahead.refl c
  have hextend (h' : Head) (hh' : h'.start = h.start) := hmore h' c hh' hrefl
  unfold headStep
  split
  · exact ⟨hrefl, rfl, by simp⟩
  · exact ⟨hrefl, rfl, by simp⟩
  · exact ⟨hrefl, rfl, fun _ => hlater⟩
  · exact hrefl
  · exact hextend _ rfl
  · rw [yields_bind]
    refine (yields_nested_ahead (onward_skipBlock _ n) hlater).mono (fun _ c' h' => ?_)
      fun _ _ h' => h'
    rw [yields_bind, yields_rest]
    exact (hmore (h.extend c'.rest) c' rfl h').mono (fun _ _ h'' => ⟨h'.trans h''.1, h''.2⟩)
      fun _ _ h'' => h'.trans h''
  · exact hextend _ rfl

theorem yields_readHead_ahead (text : List Char) (stop : Option Bracket) (n : Nat) {h : Head}
    (hstart : c.rest <:+ h.start) :
    (readHead text stop n h).Yields c (HeadAhead h.start c) (fun _ c' => c.Ahead c') := by
  induction n generalizing c h with
  | zero => exact Cursor.Ahead.refl c
  | succ n ih =>
    rw [readHead, yields_bind, yields_next]
    intro k r hnext
    obtain ⟨hr, hlater⟩ := hnext.suffix
    have hmove := (Cursor.Ahead.refl c).moveTo hr
    cases k with
    | none => exact ⟨hmove, rfl, by simp⟩
    | some k =>
      have hlater := (hlater rfl).suffix_left hstart
      refine (yields_headStep_ahead (c := { c with rest := r }) hlater (fun h' c' hh' hc' => ?_)
        k).mono (fun _ _ h' => ⟨hmove.trans h'.1, h'.2⟩) fun _ _ h' => hmove.trans h'
      rw [← hh']
      refine ih ?_
      rw [hh']
      exact hc'.rest.trans hlater.1

/-- If there is something to read, reading a head takes it from the text. -/
theorem yields_readHead_later (text : List Char) {stop : Option Bracket} (n : Nat) {h : Head}
    (hstart : c.rest <:+ h.start) (hend : atEnd stop (skipBlanks c.rest) = false) :
    (readHead text stop (n + 1) h).Yields c
      (fun p c' => HeadAhead h.start c p c' ∧ Later c.rest c'.rest)
      (fun _ c' => c.Ahead c' ∧ Later c.rest c'.rest) := by
  rw [readHead, yields_bind, yields_next]
  intro k r hnext
  cases hnext with
  | done hdone => exact absurd (hdone.symm.trans hend) (by simp)
  | token hs hnot =>
    obtain ⟨hr, hlater⟩ := (Next.token hs hnot).suffix
    have hlater := hlater rfl
    have hmove := (Cursor.Ahead.refl c).moveTo hr
    refine (yields_headStep_ahead (hlater.suffix_left hstart) (fun h' c' hh' hc' => ?_) _).mono
      (fun _ _ h' => ⟨⟨hmove.trans h'.1, h'.2⟩, hlater.of_suffix h'.1.rest⟩)
      fun _ _ h' => ⟨hmove.trans h', hlater.of_suffix h'.rest⟩
    rw [← hh']
    refine yields_readHead_ahead text stop n ?_
    rw [hh']
    exact hc'.rest.trans (hlater.1.trans hstart)

/-- An item takes something from the text, whether it can be read or not. -/
theorem yields_readItem_later (text : List Char) (n : Nat) {inner : Action Cursor (List Spec)}
    (hinner : Onward inner) (hend : atEnd stop (skipBlanks c.rest) = false) :
    (readItem text stop (n + 1) inner).Yields c (fun _ c' => c.Ahead c' ∧ Later c.rest c'.rest)
      (fun _ c' => c.Ahead c' ∧ Later c.rest c'.rest) := by
  unfold readItem
  rw [yields_bind, yields_rest, yields_bind]
  refine (yields_readHead_later text n List.suffix_rfl hend).mono ?_ fun _ _ h => h
  rintro ⟨head, block⟩ c' ⟨⟨hahead, hstart, hblock⟩, hlater⟩
  dsimp only at hstart ⊢
  have hbody : (readBody text head.start inner block).Yields c' (fun _ c'' => c'.Ahead c'')
      (fun _ c'' => c'.Ahead c'') := by
    rw [hstart]
    cases block with
    | false => exact Cursor.Ahead.refl c'
    | true =>
      rw [readBody, yields_map]
      exact yields_nested_ahead hinner (hblock rfl)
  rw [yields_bind]
  refine hbody.mono (fun body c'' h'' => ?_) fun _ c'' h'' =>
    ⟨hahead.trans h'', hlater.of_suffix h''.rest⟩
  -- the item is made of what is read, and that does not move
  rw [yields_ofExcept]
  split <;> exact ⟨hahead.trans h'', hlater.of_suffix h''.rest⟩

/-- A round over an item that takes something from the text leaves a mark that advances. -/
theorem yields_round_ahead {item : Action Cursor (Option Spec)}
    (h : item.Yields c (fun _ c' => c.Ahead c' ∧ Later c.rest c'.rest)
      (fun _ c' => c.Ahead c' ∧ Later c.rest c'.rest)) :
    (round item).Yields c (fun _ c' => c.Ahead c') (fun _ c' => c.Ahead c') := by
  have hmark (c' : Cursor) (h' : c.Ahead c' ∧ Later c.rest c'.rest) :
      c.Ahead { c' with marks := .round c.rest c'.rest :: c'.marks } :=
    h'.1.mark (m := .round c.rest c'.rest) h'.2
  rw [yields_round]
  exact h.mono (fun _ c' h' => hmark c' h') fun _ c' h' => hmark c' h'

/-- Reading items moves on, and all marks on the way advance. -/
theorem onward_items (text : List Char) (n : Nat) (stop : Option Bracket) :
    Onward (items text n stop) := by
  induction n generalizing stop with
  | zero => exact fun c => Cursor.Ahead.refl c
  | succ n ih =>
    intro c
    have hskip := (Cursor.Ahead.refl c).moveTo (skipBlanks_suffix c.rest)
    rw [items, yields_bind, yields_rest, yields_bind, yields_moveTo, yields_bind, yields_rest]
    dsimp only
    split
    · exact hskip
    · next hnot =>
      have hend : atEnd stop (skipBlanks (skipBlanks c.rest)) = false := by
        rw [skipBlanks_skipBlanks]
        simpa using hnot
      have hround := yields_round_ahead (c := { c with rest := skipBlanks c.rest })
        (yields_readItem_later text n (ih (some .curly)) hend)
      rw [yields_bind]
      refine hround.mono (fun item c' h' => ?_) fun _ c' h' => hskip.trans h'
      rw [yields_bind]
      exact (ih stop c').mono (fun _ _ h'' => (hskip.trans h').trans h'') fun _ _ h'' =>
        (hskip.trans h').trans h''

end Ahead

/-- Every mark advances, whatever the text is and however many steps are allowed. -/
theorem advances_of_mem_marks (text : List Char) (n : Nat) (stop : Option Bracket)
    (s : List Char) {m : Mark} (hm : m ∈ ((items text n stop).run ⟨s, []⟩).state.marks) :
    m.Advances := by
  have hahead := (yields_state_iff _ _ _).mp (onward_items text n stop ⟨s, []⟩)
  exact hahead.marks (fun _ hnil => absurd hnil List.not_mem_nil) m hm

-- neither the parenthesis nor the block is closed: the brace in the parenthesis is no end of the
-- block
example :
    let block := ['b', ':', '(', 'c', '\x7d']
    let text := 'a' :: '\x7b' :: block
    ((items text 8 none).run ⟨text, []⟩).state.marks.reverse =
      [.enter text block, .enter block ['c', '\x7d'], .leave [] [], .round block [], .leave [] [],
        .round text []] := by
  decide +kernel

end StyleTree.Css.Descent
