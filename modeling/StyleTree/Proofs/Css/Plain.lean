import Mathlib.Data.List.Infix
import StyleTree.Css.Item
import StyleTree.Proofs.Css.Extent

/-!
# Plain texts

A text is plain if it is trimmed, its round and square brackets are nested, and nothing in it has a
meaning to the grammar of items: no backslash, quote, semicolon or brace, no comment and no unquoted
address.  Names, preludes and values that are plain are read back as they were printed.

The reader sees a plain text only as part of a longer one, so the main statement is about a text in
its place: a text followed by a semicolon or a brace.

* `IsPlain`: the texts that are read back.
* `Safe`: the part of it that a suffix inherits, which is what an induction along the text needs.
* `Inert`: the pieces that only add to the head of an item.
* `exists_pieces_of_safe`: a safe and nested text is cut into inert pieces that spell it.
-/

namespace StyleTree.Css

open StyleTree.Text Item

/-- The characters that a plain text does not hold. -/
def reserved : List Char :=
  ['\\', '"', '\'', ';', '\x7b', '\x7d']

/-- Whether the round and square brackets of a text are nested, after some that are still open, the
innermost first. -/
def nests : List Bracket → List Char → Bool
  | stack, [] => stack.isEmpty
  | stack, c :: s =>
    if c = '(' then nests (.round :: stack) s
    else if c = '[' then nests (.square :: stack) s
    else if c = ')' then stack.head? == some .round && nests stack.tail s
    else if c = ']' then stack.head? == some .square && nests stack.tail s
    else nests stack s

/-- A text in which nothing escapes, quotes, ends an item, starts a comment or starts an address. -/
structure Safe (s : List Char) : Prop where
  chars : ∀ c ∈ s, c ∉ reserved
  comment : ¬ ['/', '*'] <:+: s
  address : ¬ ['u', 'r', 'l', '('] <:+: s.map Char.toLower

/-- A text that is read back as it was printed. -/
structure IsPlain (s : List Char) : Prop extends Safe s where
  trimmed : trim s = s
  nested : nests [] s = true

theorem isPlain_iff {s : List Char} :
    IsPlain s ↔ trim s = s ∧ (∀ c ∈ s, c ∉ reserved) ∧ ¬ ['/', '*'] <:+: s ∧
      ¬ ['u', 'r', 'l', '('] <:+: s.map Char.toLower ∧ nests [] s = true :=
  ⟨fun h => ⟨h.trimmed, h.chars, h.comment, h.address, h.nested⟩,
    fun ⟨htrim, hchars, hcomment, haddress, hnested⟩ =>
      ⟨⟨hchars, hcomment, haddress⟩, htrim, hnested⟩⟩

-- The instances are named because one that runs through all characters also fits.
instance (s : List Char) : Decidable (IsPlain s) :=
  haveI : Decidable (∀ c ∈ s, c ∉ reserved) := List.decidableBAll _ s
  haveI (l t : List Char) : Decidable (l <:+: t) := List.decidableInfix l t
  decidable_of_iff _ isPlain_iff.symm

theorem Safe.of_suffix {s t : List Char} (h : Safe t) (hst : s <:+ t) : Safe s where
  chars := fun c hc => h.chars c (hst.subset hc)
  comment := fun hs => h.comment (hs.trans hst.isInfix)
  address := fun hs => h.address (hs.trans (hst.map _).isInfix)

/-! ## Brackets -/

theorem nests_left {b : Bracket} (hb : b ≠ .curly) (stack : List Bracket) (s : List Char) :
    nests stack (b.left :: s) = nests (b :: stack) s := by
  cases b with
  | round => rfl
  | square => rfl
  | curly => exact absurd rfl hb

theorem nests_right {b : Bracket} (hb : b ≠ .curly) (stack : List Bracket) (s : List Char) :
    nests stack (b.right :: s) = (stack.head? == some b && nests stack.tail s) := by
  cases b with
  | round => rfl
  | square => rfl
  | curly => exact absurd rfl hb

/-- Characters that are not brackets do not matter. -/
theorem nests_append {l : List Char} (hl : ∀ c ∈ l, ∀ b : Bracket, c ≠ b.left ∧ c ≠ b.right)
    (stack : List Bracket) (s : List Char) : nests stack (l ++ s) = nests stack s := by
  induction l with
  | nil => rfl
  | cons c l ih =>
    have hc := hl c (List.mem_cons_self ..)
    have hround : c ≠ '(' ∧ c ≠ ')' := hc .round
    have hsquare : c ≠ '[' ∧ c ≠ ']' := hc .square
    rw [List.cons_append, nests, if_neg hround.1, if_neg hsquare.1, if_neg hround.2,
      if_neg hsquare.2]
    exact ih fun d hd => hl d (List.mem_cons_of_mem _ hd)

theorem ne_bracket_of_isInner {c : Char} (hc : isInner c = true) (b : Bracket) :
    c ≠ b.left ∧ c ≠ b.right := by
  constructor <;> rintro rfl <;> cases b <;> exact absurd hc (by decide)

theorem ne_bracket_of_isSeparator {c : Char} (hc : isSeparator c = true) (b : Bracket) :
    c ≠ b.left ∧ c ≠ b.right := by
  constructor <;> rintro rfl <;> cases b <;> exact absurd hc (by decide)

/-- A nested text closes what was left open for it and nothing else. -/
theorem nests_append_of_nests {stack : List Bracket} {s : List Char} (h : nests stack s = true)
    (outer : List Bracket) (t : List Char) : nests (stack ++ outer) (s ++ t) = nests outer t := by
  induction s generalizing stack with
  | nil =>
    obtain rfl : stack = [] := by simpa [nests] using h
    rfl
  | cons c s ih =>
    rw [nests] at h
    rw [List.cons_append, nests]
    have hpop : ∀ b : Bracket, (stack.head? == some b && nests stack.tail s) = true →
        ((stack ++ outer).head? == some b && nests (stack ++ outer).tail (s ++ t)) =
          nests outer t := by
      intro b hb
      rw [Bool.and_eq_true, beq_iff_eq] at hb
      obtain ⟨rest, rfl⟩ := List.head?_eq_some_iff.mp hb.1
      have hrest : nests (rest ++ outer) (s ++ t) = nests outer t := ih hb.2
      show (some b == some b && nests (rest ++ outer) (s ++ t)) = _
      rw [hrest, beq_self_eq_true, Bool.true_and]
    by_cases h₁ : c = '('
    · rw [if_pos h₁] at h ⊢
      exact ih h
    by_cases h₂ : c = '['
    · rw [if_neg h₁, if_pos h₂] at h ⊢
      exact ih h
    by_cases h₃ : c = ')'
    · rw [if_neg h₁, if_neg h₂, if_pos h₃] at h ⊢
      exact hpop .round h
    by_cases h₄ : c = ']'
    · rw [if_neg h₁, if_neg h₂, if_neg h₃, if_pos h₄] at h ⊢
      exact hpop .square h
    · rw [if_neg h₁, if_neg h₂, if_neg h₃, if_neg h₄] at h ⊢
      exact ih h

/-! ## Texts put together -/

/-- What stands in a text and does not hold a character stands before it or after it. -/
theorem infix_append_cons {p s t : List Char} {c : Char} (hc : c ∉ p) (h : p <:+: s ++ c :: t) :
    p <:+: s ∨ p <:+: t := by
  obtain ⟨a, b, hab⟩ := h
  rcases List.append_eq_append_iff.mp hab with ⟨r, hs, -⟩ | ⟨r, hap, hct⟩
  · exact Or.inl ⟨a, r, hs.symm⟩
  · rcases List.append_eq_append_iff.mp hap with ⟨q, hs, hp⟩ | ⟨q, ha, hr⟩
    · cases r with
      | nil => exact Or.inl ⟨a, [], by rw [List.append_nil, hap, List.append_nil]⟩
      | cons d r =>
        obtain rfl : c = d := (List.cons.inj hct).1
        exact absurd (by rw [hp]; simp) hc
    · cases r with
      | nil => exact Or.inl ⟨a, [], by rw [List.append_nil, hap, List.append_nil]⟩
      | cons d r =>
        obtain ⟨rfl, ht⟩ := List.cons.inj hct
        cases q with
        | nil => exact absurd (by rw [← (show c :: r = p from hr)]; simp) hc
        | cons d q =>
          have hr' : r = q ++ p := (List.cons.inj hr).2
          exact Or.inr ⟨q, b, by rw [ht, hr']; rfl⟩

/-- A space or a colon between safe texts makes nothing that is not safe. -/
theorem Safe.append_cons {s t : List Char} {c : Char} (hs : Safe s) (ht : Safe t)
    (hc : c = ' ' ∨ c = ':') : Safe (s ++ c :: t) where
  chars := by
    intro d hd
    rw [List.mem_append, List.mem_cons] at hd
    rcases hd with hd | rfl | hd
    · exact hs.chars d hd
    · rcases hc with rfl | rfl <;> decide
    · exact ht.chars d hd
  comment := by
    intro h
    have hnot : c ∉ ['/', '*'] := by rcases hc with rfl | rfl <;> decide
    exact (infix_append_cons hnot h).elim hs.comment ht.comment
  address := by
    intro h
    have hnot : c.toLower ∉ ['u', 'r', 'l', '('] := by rcases hc with rfl | rfl <;> decide
    rw [List.map_append, List.map_cons] at h
    exact (infix_append_cons hnot h).elim hs.address ht.address

theorem safe_nil : Safe [] := by
  refine ⟨by simp, ?_, ?_⟩ <;> decide

/-- A space or a colon between nested texts opens and closes nothing. -/
theorem nests_append_cons {s t : List Char} {c : Char} (hs : nests [] s = true)
    (ht : nests [] t = true) (hc : c = ' ' ∨ c = ':') : nests [] (s ++ c :: t) = true := by
  have happend := nests_append_of_nests hs [] (c :: t)
  rw [List.nil_append] at happend
  rw [happend]
  rcases hc with rfl | rfl <;> exact ht

/-! ## The first token of a safe text -/

/-- The tokens of safe texts, by their kind and their lexeme. -/
inductive Shape : Token.Kind → List Char → Prop
  | blank {l : List Char} (hne : l ≠ []) (hl : ∀ c ∈ l, isSeparator c = true) : Shape .blank l
  | keyword (name : List Char) {l : List Char} (hl : ∀ c ∈ l, isInner c = true) :
      Shape (.atKeyword name) ('@' :: l)
  | plain {l : List Char} (hne : l ≠ []) (hl : ∀ c ∈ l, ∀ b : Bracket, c ≠ b.left ∧ c ≠ b.right) :
      Shape .plain l
  | opening {b : Bracket} (hb : b ≠ .curly) {l : List Char} (hl : ∀ c ∈ l, isInner c = true) :
      Shape (.opening b) (l ++ [b.left])
  | closing {b : Bracket} (hb : b ≠ .curly) : Shape (.closing b) [b.right]

/-- The characters that follow a safe text where it is printed. -/
def IsDelimiter (d : Char) : Prop :=
  d = ';' ∨ d = '\x7b'

theorem IsDelimiter.isInner {d : Char} (hd : IsDelimiter d) : isInner d = false := by
  rcases hd with rfl | rfl <;> rfl

/-- A parenthesis after a part of a text that is followed by a delimiter belongs to the text. -/
theorem exists_drop_of_head {s t : List Char} {d : Char} (hd : IsDelimiter d) {n : Nat}
    (hn : n ≤ s.length) (h : ((s ++ d :: t).drop n).head? = some '(') :
    ∃ r, s.drop n = '(' :: r := by
  rw [List.drop_append_of_le_length hn] at h
  cases hs : s.drop n with
  | nil =>
    rw [hs] at h
    have hdp : d = '(' := Option.some.inj h
    subst hdp
    exact absurd hd (by unfold IsDelimiter; decide)
  | cons c r =>
    rw [hs] at h
    have hc : c = '(' := Option.some.inj h
    exact ⟨r, by rw [hc]⟩

/-- The first token of a safe text stays within the text and has one of the shapes. -/
theorem shape_read {c d : Char} {s : List Char} (h : Safe (c :: s)) (hd : IsDelimiter d)
    (t : List Char) :
    (Token.read c (s ++ d :: t)).2 ≤ s.length ∧
      Shape (Token.read c (s ++ d :: t)).1 (c :: s.take (Token.read c (s ++ d :: t)).2) := by
  have hlen := reach_append_cons hd.isInner s t
  have hle := reach_le_length s
  cases hsep : isSeparator c with
  | true =>
    have hstop : isSeparator d = false := by rcases hd with rfl | rfl <;> rfl
    have hread : Token.read c (s ++ d :: t) = (.blank, (s.takeWhile isSeparator).length) := by
      unfold Token.read
      rw [if_pos hsep, takeWhile_append_cons hstop]
    rw [hread]
    refine ⟨(List.takeWhile_prefix _).length_le, Shape.blank (by simp) fun x hx => ?_⟩
    rcases List.mem_cons.mp hx with rfl | hx
    · exact hsep
    · rw [← List.prefix_iff_eq_take.mp (List.takeWhile_prefix _)] at hx
      exact List.mem_takeWhile_imp hx
  | false =>
    have hc := h.chars c (List.mem_cons_self ..)
    have hextent : Extent c (s ++ d :: t) (Token.read c (s ++ d :: t)) := by
      apply extent_read hsep
      · simp only [reserved, List.mem_cons, not_or] at hc
        simp [hc]
      · rintro rfl hstar
        cases s with
        | nil =>
          have hdstar : d = '*' := Option.some.inj hstar
          subst hdstar
          exact absurd hd (by unfold IsDelimiter; decide)
        | cons x s =>
          have hx : x = '*' := Option.some.inj hstar
          subst hx
          exact h.comment ⟨[], s, rfl⟩
      · have hslash : '\\' ∉ s := fun hmem =>
          h.chars '\\' (List.mem_cons_of_mem _ hmem) (by decide)
        exact unescaped_append_cons hd.isInner (by rcases hd with rfl | rfl <;> decide) hslash t
      · intro n hn hhead hurl
        rw [hlen] at hn
        obtain ⟨r, hr⟩ := exists_drop_of_head hd (hn.trans hle) hhead
        rw [List.take_append_of_le_length (hn.trans hle)] at hurl
        refine h.address ⟨[], r.map Char.toLower, ?_⟩
        rw [← List.take_append_drop n s, hr, ← List.cons_append, List.map_append, hurl]
        rfl
    generalize Token.read c (s ++ d :: t) = read at hextent
    cases hextent with
    | opening b hcb =>
      refine ⟨Nat.zero_le _, ?_⟩
      subst hcb
      exact Shape.opening (l := []) (fun hb => hc (by rw [hb]; decide)) (by simp)
    | closing b hcb =>
      refine ⟨Nat.zero_le _, ?_⟩
      subst hcb
      exact Shape.closing fun hb => hc (by rw [hb]; decide)
    | @keyword n hcat hn =>
      rw [hlen] at hn
      subst hcat
      exact ⟨hn.trans hle, Shape.keyword _ fun x hx => isInner_of_mem_take hn hx⟩
    | @plain n hcb hn =>
      rw [hlen] at hn
      refine ⟨hn.trans hle, Shape.plain (by simp) fun x hx => ?_⟩
      rcases List.mem_cons.mp hx with rfl | hx
      · exact hcb
      · exact ne_bracket_of_isInner (isInner_of_mem_take hn hx)
    | @function n hcinner hn hhead =>
      rw [hlen] at hn
      obtain ⟨r, hr⟩ := exists_drop_of_head hd (hn.trans hle) hhead
      have hlt : n < s.length := by
        by_contra hge
        rw [List.drop_eq_nil_of_le (by omega)] at hr
        exact absurd hr (by simp)
      refine ⟨hlt, ?_⟩
      have htake : c :: s.take (n + 1) = (c :: s.take n) ++ [Bracket.round.left] := by
        have hget : s[n]? = some '(' := by rw [← List.head?_drop, hr, List.head?_cons]
        rw [List.take_add_one, hget]
        rfl
      rw [htake]
      refine Shape.opening (by decide) fun x hx => ?_
      rcases List.mem_cons.mp hx with rfl | hx
      · exact hcinner
      · exact isInner_of_mem_take hn hx

/-! ## The pieces of a safe text -/

/-- Whether a piece only adds to the head of an item. -/
def Piece.isInert : Piece → Bool
  | blank _ | keyword _ _ | chunk _ => true
  | semicolon | openBlock | closeBlock => false

/-- A piece of a safe text that only adds to the head of an item. -/
inductive Inert : Piece → Prop
  | blank {s : List Char} (hne : s ≠ []) (hs : ∀ c ∈ s, isSeparator c = true) : Inert (.blank s)
  | keyword {name s : List Char} (hs : s.head? = some '@') : Inert (.keyword name s)
  | chunk {s : List Char} (hne : s ≠ []) : Inert (.chunk s)

theorem Inert.isInert {p : Piece} (h : Inert p) : p.isInert = true := by
  cases h <;> rfl

/-- Grouping tokens cuts off inert pieces that spell what is held back and a text. -/
def Cuts (stack : List Bracket) (held : List (List Char)) (ts : List Token) (w : List Char)
    (rest : List Piece) : Prop :=
  ∃ ps, Piece.group stack held ts = ps ++ rest ∧ textOf ps = held.reverse.flatten ++ w ∧
    ∀ p ∈ ps, Inert p

section Cuts

variable {stack : List Bracket} {held : List (List Char)} {ts : List Token} {l w : List Char}
  {rest : List Piece} {k : Token.Kind} {p : Piece} {b : Bracket}

/-- One piece more. -/
theorem Cuts.cons (hp : Inert p) (h : Cuts [] [] ts w rest)
    (hgroup : Piece.group stack held (⟨k, l⟩ :: ts) = p :: Piece.group [] [] ts)
    (htext : p.text = held.reverse.flatten ++ l) :
    Cuts stack held (⟨k, l⟩ :: ts) (l ++ w) rest := by
  obtain ⟨ps, hps, hw, hinert⟩ := h
  refine ⟨p :: ps, by rw [hgroup, hps, List.cons_append], ?_, ?_⟩
  · show p.text ++ textOf ps = _
    rw [htext, hw, List.append_assoc]
    rfl
  · intro q hq
    rcases List.mem_cons.mp hq with rfl | hq
    · exact hp
    · exact hinert q hq

/-- One lexeme more held back. -/
theorem Cuts.hold {stack' : List Bracket} (h : Cuts stack' (l :: held) ts w rest)
    (hgroup : Piece.group stack held (⟨k, l⟩ :: ts) = Piece.group stack' (l :: held) ts) :
    Cuts stack held (⟨k, l⟩ :: ts) (l ++ w) rest := by
  obtain ⟨ps, hps, hw, hinert⟩ := h
  refine ⟨ps, by rw [hgroup, hps], ?_, hinert⟩
  rw [hw, List.reverse_cons, List.flatten_append, List.append_assoc]
  simp

/-- A token that opens and closes nothing is a piece of its own, or is held back inside brackets. -/
theorem Cuts.keep (hheld : stack = [] → held = []) (hp : Inert p) (htext : p.text = l)
    (hgroup : Piece.group [] [] (⟨k, l⟩ :: ts) = p :: Piece.group [] [] ts)
    (hnest : ∀ st, Piece.nest st k = st)
    (h : ∀ held', (stack = [] → held' = []) → Cuts stack held' ts w rest) :
    Cuts stack held (⟨k, l⟩ :: ts) (l ++ w) rest := by
  cases stack with
  | nil =>
    obtain rfl := hheld rfl
    exact Cuts.cons hp (h [] fun _ => rfl) hgroup htext
  | cons b bs =>
    refine Cuts.hold (h (l :: held) (by simp)) ?_
    rw [Piece.group, hnest]

theorem Cuts.push (hheld : stack = [] → held = []) (hb : b ≠ .curly)
    (h : Cuts (b :: stack) (l :: held) ts w rest) :
    Cuts stack held (⟨.opening b, l⟩ :: ts) (l ++ w) rest := by
  refine Cuts.hold h ?_
  cases stack with
  | nil =>
    obtain rfl := hheld rfl
    cases b with
    | round => rfl
    | square => rfl
    | curly => exact absurd rfl hb
  | cons b' bs => rfl

theorem Cuts.pop (hl : l ≠ [])
    (h : ∀ held', (stack = [] → held' = []) → Cuts stack held' ts w rest) :
    Cuts (b :: stack) held (⟨.closing b, l⟩ :: ts) (l ++ w) rest := by
  have hnest : Piece.nest (b :: stack) (.closing b) = stack := if_pos rfl
  cases stack with
  | nil =>
    refine Cuts.cons (p := .chunk (l :: held).reverse.flatten) ?_ (h [] fun _ => rfl) ?_ ?_
    · refine Inert.chunk fun hnil => hl ?_
      exact List.flatten_eq_nil_iff.mp hnil l (by simp)
    · rw [Piece.group, hnest]
    · show (l :: held).reverse.flatten = _
      rw [List.reverse_cons, List.flatten_append]
      simp
  | cons b' bs =>
    refine Cuts.hold (h (l :: held) (by simp)) ?_
    rw [Piece.group, hnest]

end Cuts

/-- Along a safe text whose brackets are nested, every lexeme ends up in an inert piece.  The
induction is on the length of the text, because a token takes several characters at once; what it
needs to know of the brackets read so far is their stack. -/
theorem cuts_of_safe {d : Char} (hd : IsDelimiter d) (t : List Char) {s : List Char} (hs : Safe s)
    {stack : List Bracket} (hn : nests stack s = true) {held : List (List Char)}
    (hheld : stack = [] → held = []) :
    Cuts stack held (tokens (s ++ d :: t)) s (pieces (d :: t)) := by
  induction hlen : s.length using Nat.strong_induction_on generalizing s stack held with
  | _ m ih =>
    cases s with
    | nil =>
      cases stack with
      | nil =>
        obtain rfl := hheld rfl
        exact ⟨[], rfl, rfl, by simp⟩
      | cons b bs => exact absurd hn (by simp [nests])
    | cons c s =>
      obtain ⟨hle, hshape⟩ := shape_read hs hd t
      rw [List.cons_append, tokens_cons]
      generalize Token.read c (s ++ d :: t) = read at hle hshape
      obtain ⟨k, n⟩ := read
      dsimp only at hle hshape ⊢
      have hsplit : c :: s = (c :: s.take n) ++ s.drop n := by
        rw [List.cons_append, List.take_append_drop]
      have hrest : ∀ {stack' held'}, nests stack' (s.drop n) = true →
          (stack' = [] → held' = []) →
          Cuts stack' held' (tokens (s.drop n ++ d :: t)) (s.drop n) (pieces (d :: t)) := by
        intro stack' held' hn' hheld'
        refine ih (s.drop n).length ?_ (hs.of_suffix ?_) hn' hheld' rfl
        · rw [← hlen, List.length_drop, List.length_cons]
          omega
        · exact (List.drop_suffix n s).trans (List.suffix_cons c s)
      rw [List.take_append_of_le_length hle, List.drop_append_of_le_length hle]
      rw [hsplit] at hn ⊢
      generalize c :: s.take n = l at hn hshape ⊢
      generalize s.drop n = s' at hn hrest ⊢
      cases hshape with
      | blank hne hl =>
        rw [nests_append fun c hc => ne_bracket_of_isSeparator (hl c hc)] at hn
        exact Cuts.keep hheld (Inert.blank hne hl) rfl rfl (fun _ => rfl) fun _ => hrest hn
      | keyword name hl =>
        have hat : ∀ c ∈ ['@'], ∀ b : Bracket, c ≠ b.left ∧ c ≠ b.right := by
          intro c hc b
          obtain rfl := List.mem_singleton.mp hc
          cases b <;> decide
        refine Cuts.keep hheld (Inert.keyword rfl) rfl rfl (fun _ => rfl) fun _ => hrest ?_
        rwa [← List.singleton_append, List.append_assoc, nests_append hat,
          nests_append fun c hc => ne_bracket_of_isInner (hl c hc)] at hn
      | plain hne hl =>
        rw [nests_append hl] at hn
        exact Cuts.keep hheld (Inert.chunk hne) rfl rfl (fun _ => rfl) fun _ => hrest hn
      | @opening b hb l hl =>
        rw [List.append_assoc, nests_append fun c hc => ne_bracket_of_isInner (hl c hc),
          List.singleton_append, nests_left hb] at hn
        exact Cuts.push hheld hb (hrest hn (by simp))
      | @closing b hb =>
        rw [List.singleton_append, nests_right hb] at hn
        simp only [Bool.and_eq_true, beq_iff_eq] at hn
        cases stack with
        | nil => exact absurd hn.1 (by simp)
        | cons b' bs =>
          obtain rfl : b' = b := by simpa using hn.1
          exact Cuts.pop (by simp) fun _ => hrest hn.2

/-- A safe text whose brackets are nested is cut into inert pieces that spell it, wherever a
delimiter follows it. -/
theorem exists_pieces_of_safe {d : Char} (hd : IsDelimiter d) (t : List Char) {s : List Char}
    (hs : Safe s) (hn : nests [] s = true) :
    ∃ ps, pieces (s ++ d :: t) = ps ++ pieces (d :: t) ∧ textOf ps = s ∧ ∀ p ∈ ps, Inert p := by
  obtain ⟨ps, hps, hw, hinert⟩ := cuts_of_safe hd t hs hn fun _ => rfl
  exact ⟨ps, hps, hw, hinert⟩

end StyleTree.Css
