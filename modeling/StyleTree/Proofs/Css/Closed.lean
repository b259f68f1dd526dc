import StyleTree.Proofs.Css.Head

/-!
# Texts that a barrier ends

Where a token ends may depend on what follows it, and at the end of a text everything that is open
is closed.  So a text alone does not tell how it is read as part of a longer one: a string that it
leaves open goes on, and a backslash at its end escapes what comes next.  But a semicolon or a curly
bracket that is read as such is a barrier.  Nothing is open where it stands, and no token before it
looks past it.

* `read_append_of_le`: a token that ends before a barrier is the same, whatever follows the barrier.
* `tokens_append`, `pieces_textOf_append`: so are all the tokens and pieces before it, if it is one
  itself.
* `textOf_pieces`: the pieces of a text concatenate to the text.
-/

namespace StyleTree.Css

open StyleTree.Text Item

/-! ## Equations by the first character -/

theorem startsName_cons (c : Char) (s : List Char) : startsName (c :: s) =
    if c = '-' then s.head?.any fun x => isNameStart x || x == '-' || x == '\\'
    else if c = '\\' then !startsNewline s
    else isNameStart c := by
  unfold startsName
  split
  · next h =>
    cases h
    rfl
  · next h =>
    cases h
    rfl
  · next hhyphen hslash h =>
    cases h
    by_cases hc : c = '-'
    · subst hc
      cases s with
      | nil => rfl
      | cons x s => exact absurd rfl (hhyphen x s rfl)
    · rw [if_neg hc, if_neg hslash]
  · next h => cases h

/-- A carriage return and a line feed count as one, by the test for a single character. -/
theorem pairLength_cons {f : List Char → Nat} {p : Char → Bool}
    (hpair : ∀ s, f ('\r' :: '\n' :: s) = 2)
    (hone : ∀ c s, (∀ r, c = '\r' → s = '\n' :: r → False) → f (c :: s) = if p c then 1 else 0)
    (c : Char) (s : List Char) : f (c :: s) =
      if c = '\r' ∧ s.head? = some '\n' then 2 else if p c then 1 else 0 := by
  by_cases h : c = '\r' ∧ s.head? = some '\n'
  · obtain ⟨rfl, hs⟩ := h
    obtain ⟨r, rfl⟩ := List.head?_eq_some_iff.mp hs
    exact hpair r
  · rw [if_neg h]
    refine hone c s fun r hc hs => h ⟨hc, ?_⟩
    rw [hs, List.head?_cons]

theorem commentLength_cons (c : Char) (s : List Char) : commentLength (c :: s) =
    if c = '*' ∧ s.head? = some '/' then 2 else commentLength s + 1 := by
  rw [commentLength.eq_def]
  split
  · next h =>
    cases h
    rfl
  · next hmark h =>
    cases h
    rw [if_neg]
    rintro ⟨rfl, hs⟩
    obtain ⟨r, rfl⟩ := List.head?_eq_some_iff.mp hs
    exact hmark r rfl rfl
  · next h => cases h

theorem badUrlLength_cons (c : Char) (s : List Char) : badUrlLength (c :: s) =
    if c = ')' then 1
    else if c = '\\' ∧ (s.head? = some ')' ∨ s.head? = some '\\') then badUrlLength s.tail + 2
    else badUrlLength s + 1 := by
  rw [badUrlLength.eq_def]
  split
  · next h =>
    cases h
    rfl
  · next h =>
    cases h
    rfl
  · next h =>
    cases h
    rfl
  · next hclose hround hslash h =>
    cases h
    rw [if_neg hclose, if_neg]
    rintro ⟨rfl, hs | hs⟩
    · obtain ⟨r, rfl⟩ := List.head?_eq_some_iff.mp hs
      exact hround r rfl rfl
    · obtain ⟨r, rfl⟩ := List.head?_eq_some_iff.mp hs
      exact hslash r rfl rfl
  · next h => cases h

theorem fractionLength_eq (s : List Char) : fractionLength s =
    if startsFraction s then digitsLength s.tail + 1 else 0 := by
  unfold fractionLength startsFraction
  split
  · next c s =>
    by_cases hc : c.isDigit = true
    · simp [startsDigit, digitsLength, hc]
    · simp [startsDigit, hc]
  · next h =>
    split
    · next s =>
      cases s with
      | nil => rfl
      | cons c s => exact absurd rfl (h c s)
    · rfl

/-! ## What no token looks at -/

/-- The characters that end every token that does not take them in: the delimiters that stand after
a head, and the brace that closes a block. -/
def IsBarrier (d : Char) : Prop :=
  d = ';' ∨ d = '\x7b' ∨ d = '\x7d'

section Barrier

variable {d : Char} (hd : IsBarrier d)

theorem head?_append (s t t' : List Char) : (s ++ d :: t).head? = (s ++ d :: t').head? := by
  cases s <;> rfl

theorem startsNewline_append (s t t' : List Char) :
    startsNewline (s ++ d :: t) = startsNewline (s ++ d :: t') := by
  cases s <;> rfl

theorem startsDigit_append (s t t' : List Char) :
    startsDigit (s ++ d :: t) = startsDigit (s ++ d :: t') := by
  cases s <;> rfl

theorem signLength_append (s t t' : List Char) :
    signLength (s ++ d :: t) = signLength (s ++ d :: t') := by
  cases s <;> rfl

theorem isPrefixOf_append {p : List Char} (hp : d ∉ p) (s t t' : List Char) :
    p.isPrefixOf (s ++ d :: t) = p.isPrefixOf (s ++ d :: t') := by
  induction p generalizing s with
  | nil => rfl
  | cons c p ih =>
    rw [List.mem_cons, not_or] at hp
    cases s with
    | nil =>
      have hne : (c == d) = false := beq_eq_false_iff_ne.mpr (Ne.symm hp.1)
      rw [List.nil_append, List.nil_append, List.isPrefixOf_cons_cons,
        List.isPrefixOf_cons_cons, hne]
      rfl
    | cons x s =>
      rw [List.cons_append, List.cons_append, List.isPrefixOf_cons_cons,
        List.isPrefixOf_cons_cons, ih hp.2]

include hd

theorem startsName_append (s t t' : List Char) :
    startsName (s ++ d :: t) = startsName (s ++ d :: t') := by
  cases s with
  | nil => rcases hd with rfl | rfl | rfl <;> rfl
  | cons c s =>
    rw [List.cons_append, List.cons_append, startsName_cons, startsName_cons, head?_append s t t',
      startsNewline_append s t t']

theorem separatorLength_append (s t t' : List Char) :
    separatorLength (s ++ d :: t) = separatorLength (s ++ d :: t') := by
  have hcons := pairLength_cons (f := separatorLength) (fun _ => rfl)
    (fun c s => separatorLength.eq_2 c s)
  cases s with
  | nil => rcases hd with rfl | rfl | rfl <;> rfl
  | cons c s => rw [List.cons_append, List.cons_append, hcons, hcons, head?_append s t t']

theorem newlineLength_append (s t t' : List Char) :
    newlineLength (s ++ d :: t) = newlineLength (s ++ d :: t') := by
  have hcons := pairLength_cons (f := newlineLength) (fun _ => rfl)
    (fun c s => newlineLength.eq_2 c s)
  cases s with
  | nil => rcases hd with rfl | rfl | rfl <;> rfl
  | cons c s => rw [List.cons_append, List.cons_append, hcons, hcons, head?_append s t t']

theorem hexDigits_append (s t : List Char) : hexDigits (s ++ d :: t) = hexDigits s := by
  have hhex : isHexDigit d = false := by rcases hd with rfl | rfl | rfl <;> rfl
  unfold hexDigits
  rw [List.take_append]
  cases 6 - s.length with
  | zero => rw [List.take_zero, List.append_nil]
  | succ n => rw [List.take_succ_cons, takeWhile_append_cons hhex]

theorem escapeLength_append (s t t' : List Char) :
    escapeLength (s ++ d :: t) = escapeLength (s ++ d :: t') := by
  cases s with
  | nil => rcases hd with rfl | rfl | rfl <;> rfl
  | cons c s =>
    have hle : (hexDigits (c :: s)).length ≤ (c :: s).length :=
      (List.takeWhile_prefix _).length_le.trans (List.length_take_le' 6 _)
    have heq : ∀ t, escapeLength (c :: s ++ d :: t) = if isHexDigit c then
        (hexDigits (c :: s)).length +
          separatorLength ((c :: s).drop (hexDigits (c :: s)).length ++ d :: t) else 1 := by
      intro t
      show (if isHexDigit c then (hexDigits (c :: s ++ d :: t)).length +
        separatorLength ((c :: s ++ d :: t).drop (hexDigits (c :: s ++ d :: t)).length) else 1) = _
      rw [hexDigits_append hd, List.drop_append_of_le_length hle]
    rw [heq t, heq t', separatorLength_append hd _ t t']

theorem startsFraction_append (s t t' : List Char) :
    startsFraction (s ++ d :: t) = startsFraction (s ++ d :: t') := by
  cases s with
  | nil => rcases hd with rfl | rfl | rfl <;> rfl
  | cons c s =>
    by_cases hc : c = '.'
    · subst hc
      exact startsDigit_append s t t'
    · rw [List.cons_append, List.cons_append, startsFraction, startsFraction] <;>
        exact fun _ h => hc (List.cons.inj h).1

theorem startsNumber_append (s t t' : List Char) :
    startsNumber (s ++ d :: t) = startsNumber (s ++ d :: t') := by
  cases s with
  | nil => rcases hd with rfl | rfl | rfl <;> rfl
  | cons c s =>
    have hfraction := startsFraction_append hd (c :: s) t t'
    rw [List.cons_append, List.cons_append] at hfraction ⊢
    rw [startsNumber, startsNumber, hfraction, startsFraction_append hd s t t',
      startsDigit_append s t t']
    rfl

theorem digitsLength_append (s t : List Char) : digitsLength (s ++ d :: t) = digitsLength s := by
  have hdigit : d.isDigit = false := by rcases hd with rfl | rfl | rfl <;> rfl
  unfold digitsLength
  rw [takeWhile_append_cons hdigit]

theorem signLength_le (s t : List Char) : signLength (s ++ d :: t) ≤ s.length := by
  have h := signLength_le_reach (s ++ d :: t)
  have hinner : isInner d = false := by rcases hd with rfl | rfl | rfl <;> rfl
  rw [reach_append_cons hinner] at h
  exact h.trans (reach_le_length s)

theorem fractionLength_append (s t t' : List Char) :
    fractionLength (s ++ d :: t) = fractionLength (s ++ d :: t') := by
  rw [fractionLength_eq, fractionLength_eq, startsFraction_append hd s t t']
  cases s with
  | nil => rcases hd with rfl | rfl | rfl <;> rfl
  | cons c s =>
    rw [List.cons_append, List.cons_append, List.tail_cons, List.tail_cons,
      digitsLength_append hd s t, digitsLength_append hd s t']

theorem exponentLength_append (s t t' : List Char) :
    exponentLength (s ++ d :: t) = exponentLength (s ++ d :: t') := by
  cases s with
  | nil => rcases hd with rfl | rfl | rfl <;> rfl
  | cons c s =>
    have hdigits : ∀ t, digitsLength ((s ++ d :: t).drop (signLength (s ++ d :: t))) =
        digitsLength (s.drop (signLength (s ++ d :: t))) := by
      intro t
      rw [List.drop_append_of_le_length (signLength_le hd s t), digitsLength_append hd]
    rw [List.cons_append, List.cons_append, exponentLength, exponentLength]
    dsimp only
    rw [hdigits t, hdigits t', signLength_append s t t']

/-! ## Measures that may reach the barrier

Names, strings, comments and addresses can take the barrier in.  If one of them does not, it is the
same whatever follows the barrier. -/

omit hd in
/-- A choice between two measures stays the same if the one that is chosen does. -/
theorem ite_eq_of_le {p : Prop} [Decidable p] {m a b a' b' : Nat} (h : (if p then a else b) ≤ m)
    (ha : p → a ≤ m → a' = a) (hb : ¬ p → b ≤ m → b' = b) :
    (if p then a' else b') = if p then a else b := by
  by_cases hp : p
  · rw [if_pos hp] at h
    rw [if_pos hp, if_pos hp, ha hp h]
  · rw [if_neg hp] at h
    rw [if_neg hp, if_neg hp, hb hp h]

omit hd in
/-- One character more. -/
theorem succ_eq_of_le {m n n' : Nat} (ih : n ≤ m → n' = n) (h : n + 1 ≤ m + 1) : n' + 1 = n + 1 :=
  congrArg (· + 1) (ih (Nat.le_of_succ_le_succ h))

theorem nameLength_append_of_le {k : Nat} {s t : List Char}
    (h : nameLength k (s ++ d :: t) ≤ s.length) (t' : List Char) :
    nameLength k (s ++ d :: t') = nameLength k (s ++ d :: t) := by
  induction s generalizing k with
  | nil =>
    cases k with
    | zero => rcases hd with rfl | rfl | rfl <;> rfl
    | succ k => exact absurd h (by simp [nameLength])
  | cons c s ih =>
    rw [List.cons_append] at h
    rw [List.cons_append, List.cons_append]
    cases k with
    | succ k =>
      rw [nameLength] at h
      rw [nameLength, nameLength]
      exact succ_eq_of_le ih h
    | zero =>
      rw [nameLength] at h
      rw [nameLength, nameLength, startsNewline_append s t' t, escapeLength_append hd s t' t]
      exact ite_eq_of_le h (fun _ => succ_eq_of_le ih) fun _ h =>
        ite_eq_of_le h (fun _ => succ_eq_of_le ih) fun _ _ => rfl

theorem stringLength_append_of_le {quote : Char} (hquote : d ≠ quote) {k : Nat} {s t : List Char}
    (h : stringLength quote k (s ++ d :: t) ≤ s.length) (t' : List Char) :
    stringLength quote k (s ++ d :: t') = stringLength quote k (s ++ d :: t) := by
  induction s generalizing k with
  | nil =>
    cases k with
    | zero =>
      -- the string takes the barrier in
      rw [List.nil_append, stringLength, if_neg (by simp [hquote]),
        if_neg (by rcases hd with rfl | rfl | rfl <;> decide),
        if_neg (by rcases hd with rfl | rfl | rfl <;> decide)] at h
      exact absurd h (by simp)
    | succ k => exact absurd h (by simp [stringLength])
  | cons c s ih =>
    rw [List.cons_append] at h
    rw [List.cons_append, List.cons_append]
    cases k with
    | succ k =>
      rw [stringLength] at h
      rw [stringLength, stringLength]
      exact succ_eq_of_le ih h
    | zero =>
      rw [stringLength] at h
      rw [stringLength, stringLength, startsNewline_append s t' t, escapeLength_append hd s t' t,
        newlineLength_append hd s t' t]
      exact ite_eq_of_le h (fun _ _ => rfl) fun _ h => ite_eq_of_le h (fun _ _ => rfl) fun _ h =>
        ite_eq_of_le h (fun _ => succ_eq_of_le ih) fun _ => succ_eq_of_le ih

theorem commentLength_append_of_le {s t : List Char} (h : commentLength (s ++ d :: t) ≤ s.length)
    (t' : List Char) : commentLength (s ++ d :: t') = commentLength (s ++ d :: t) := by
  induction s with
  | nil =>
    rw [List.nil_append, commentLength_cons,
      if_neg (by rcases hd with rfl | rfl | rfl <;> simp)] at h
    exact absurd h (by simp)
  | cons c s ih =>
    rw [List.cons_append] at h
    rw [List.cons_append, List.cons_append]
    rw [commentLength_cons] at h
    rw [commentLength_cons, commentLength_cons, head?_append s t' t]
    exact ite_eq_of_le h (fun _ _ => rfl) fun _ => succ_eq_of_le ih

theorem badUrlLength_append_of_le {s t : List Char} (h : badUrlLength (s ++ d :: t) ≤ s.length)
    (t' : List Char) : badUrlLength (s ++ d :: t') = badUrlLength (s ++ d :: t) := by
  induction hlen : s.length using Nat.strong_induction_on generalizing s with
  | _ m ih =>
    cases s with
    | nil =>
      rw [List.nil_append, badUrlLength_cons, if_neg (by rcases hd with rfl | rfl | rfl <;> simp),
        if_neg (by rcases hd with rfl | rfl | rfl <;> simp)] at h
      exact absurd h (by simp)
    | cons c s =>
      rw [List.cons_append] at h
      rw [List.cons_append, List.cons_append]
      rw [badUrlLength_cons] at h
      rw [badUrlLength_cons, badUrlLength_cons, head?_append s t' t]
      rw [List.length_cons] at hlen h
      refine ite_eq_of_le h (fun _ _ => rfl) fun _ h => ite_eq_of_le h (fun hslash h => ?_) fun _ =>
        succ_eq_of_le fun h => ih s.length (by omega) h rfl
      cases s with
      | nil =>
        -- a barrier is not hidden by a backslash
        exact absurd hslash.2 (by rcases hd with rfl | rfl | rfl <;> simp)
      | cons x s =>
        rw [List.length_cons] at hlen h
        have htail : badUrlLength (s ++ d :: t') = badUrlLength (s ++ d :: t) := by
          refine ih s.length (by omega) ?_ rfl
          rw [List.cons_append, List.tail_cons] at h
          omega
        rw [List.cons_append, List.cons_append, List.tail_cons, List.tail_cons, htail]

theorem urlEndLength_append_of_le {s t : List Char} (h : urlEndLength (s ++ d :: t) ≤ s.length)
    (t' : List Char) : urlEndLength (s ++ d :: t') = urlEndLength (s ++ d :: t) := by
  induction s with
  | nil =>
    rw [List.nil_append, urlEndLength, if_neg (by rcases hd with rfl | rfl | rfl <;> decide),
      if_neg (by rcases hd with rfl | rfl | rfl <;> decide)] at h
    exact absurd h (by simp)
  | cons c s ih =>
    rw [List.cons_append] at h
    rw [List.cons_append, List.cons_append]
    rw [urlEndLength] at h
    rw [urlEndLength, urlEndLength]
    exact ite_eq_of_le h (fun _ _ => rfl) fun _ h => ite_eq_of_le h (fun _ => succ_eq_of_le ih)
      fun _ => succ_eq_of_le fun h => badUrlLength_append_of_le hd h t'

theorem urlBodyLength_append_of_le {k : Nat} {s t : List Char}
    (h : urlBodyLength k (s ++ d :: t) ≤ s.length) (t' : List Char) :
    urlBodyLength k (s ++ d :: t') = urlBodyLength k (s ++ d :: t) := by
  induction s generalizing k with
  | nil =>
    cases k with
    | zero =>
      rw [List.nil_append, urlBodyLength, if_neg (by rcases hd with rfl | rfl | rfl <;> decide),
        if_neg (by rcases hd with rfl | rfl | rfl <;> decide),
        if_neg (by rcases hd with rfl | rfl | rfl <;> decide),
        if_neg (by rcases hd with rfl | rfl | rfl <;> decide)] at h
      exact absurd h (by simp)
    | succ k => exact absurd h (by simp [urlBodyLength])
  | cons c s ih =>
    rw [List.cons_append] at h
    rw [List.cons_append, List.cons_append]
    cases k with
    | succ k =>
      rw [urlBodyLength] at h
      rw [urlBodyLength, urlBodyLength]
      exact succ_eq_of_le ih h
    | zero =>
      have hbad : badUrlLength (s ++ d :: t) ≤ s.length →
          badUrlLength (s ++ d :: t') = badUrlLength (s ++ d :: t) := fun h =>
        badUrlLength_append_of_le hd h t'
      rw [urlBodyLength] at h
      rw [urlBodyLength, urlBodyLength, startsNewline_append s t' t, escapeLength_append hd s t' t]
      exact ite_eq_of_le h (fun _ _ => rfl) fun _ h =>
        ite_eq_of_le h
          (fun _ => succ_eq_of_le fun h => urlEndLength_append_of_le hd h t') fun _ h =>
        ite_eq_of_le h (fun _ => succ_eq_of_le hbad) fun _ h =>
        ite_eq_of_le h (fun _ h => ite_eq_of_le h (fun _ => succ_eq_of_le hbad)
          fun _ => succ_eq_of_le ih) fun _ => succ_eq_of_le ih

/-- An address that ends before the barrier. -/
theorem urlLength?_append_of_le {s t : List Char} (h : ∀ m ∈ urlLength? (s ++ d :: t), m ≤ s.length)
    (t' : List Char) : urlLength? (s ++ d :: t') = urlLength? (s ++ d :: t) := by
  induction s with
  | nil =>
    have hnone : urlLength? (d :: t) = some (urlBodyLength 0 (d :: t)) := by
      rcases hd with rfl | rfl | rfl <;> rfl
    have hbody := urlBodyLength_append_of_le hd (s := []) (h _ hnone) t'
    have hnone' : urlLength? (d :: t') = some (urlBodyLength 0 (d :: t')) := by
      rcases hd with rfl | rfl | rfl <;> rfl
    rw [List.nil_append, List.nil_append, hnone, hnone']
    exact congrArg some hbody
  | cons c s ih =>
    rw [List.cons_append] at h
    rw [List.cons_append, List.cons_append]
    rw [urlLength?] at h
    rw [urlLength?, urlLength?]
    by_cases hsep : isSeparator c = true
    · rw [if_pos hsep] at h
      rw [if_pos hsep, if_pos hsep, ih fun m hm => ?_]
      exact Nat.le_of_succ_le_succ (h (m + 1) (Option.mem_map_of_mem _ hm))
    · rw [if_neg hsep] at h
      rw [if_neg hsep, if_neg hsep]
      by_cases hquote : (c == '"' || c == '\'') = true
      · rw [if_pos hquote, if_pos hquote]
      · rw [if_neg hquote] at h
        rw [if_neg hquote, if_neg hquote]
        exact congrArg some (urlBodyLength_append_of_le hd (s := c :: s) (h _ rfl) t')

theorem unitLength_append_of_le {s t : List Char} (h : unitLength (s ++ d :: t) ≤ s.length)
    (t' : List Char) : unitLength (s ++ d :: t') = unitLength (s ++ d :: t) := by
  have heq : ∀ s : List Char, s.head? ≠ some '%' →
      unitLength s = if startsName s then nameLength 0 s else 0 := by
    intro s hs
    rw [unitLength]
    rintro r rfl
    exact hs rfl
  by_cases hhead : (s ++ d :: t).head? = some '%'
  · cases s with
    | nil => exact absurd hhead (by rcases hd with rfl | rfl | rfl <;> simp)
    | cons c s =>
      obtain rfl : c = '%' := Option.some.inj hhead
      rfl
  · rw [heq _ hhead] at h ⊢
    rw [heq _ (head?_append s t t' ▸ hhead), startsName_append hd s t' t]
    exact ite_eq_of_le h (fun _ h => nameLength_append_of_le hd h t') fun _ _ => rfl

/-- A number that ends before the barrier: each part of it is measured from where the parts before
it end. -/
theorem numberLength_append_of_le {s t : List Char} (h : numberLength (s ++ d :: t) ≤ s.length)
    (t' : List Char) : numberLength (s ++ d :: t') = numberLength (s ++ d :: t) := by
  have hpart : ∀ {f : List Char → Nat}, (∀ s t t', f (s ++ d :: t) = f (s ++ d :: t')) →
      ∀ n ≤ s.length, f ((s ++ d :: t').drop n) = f ((s ++ d :: t).drop n) := by
    intro f hf n hn
    rw [List.drop_append_of_le_length hn, List.drop_append_of_le_length hn, hf _ t' t]
  unfold numberLength at h ⊢
  dsimp only at h ⊢
  rw [signLength_append s t' t]
  have hdigits : ∀ s t t', digitsLength (s ++ d :: t) = digitsLength (s ++ d :: t') := fun s t t' =>
    (digitsLength_append hd s t).trans (digitsLength_append hd s t').symm
  rw [hpart hdigits _ (by omega)]
  rw [hpart (fractionLength_append hd) _ (by omega)]
  rw [hpart (exponentLength_append hd) _ (by omega)]
  generalize signLength (s ++ d :: t) + _ + _ + _ = n at h ⊢
  have hn : n ≤ s.length := by omega
  rw [List.drop_append_of_le_length hn] at h ⊢
  rw [List.drop_append_of_le_length hn, unitLength_append_of_le hd]
  rw [List.length_drop]
  omega

/-! ## Tokens -/

theorem readName_append_of_le {s t : List Char} (h : (Token.readName (s ++ d :: t)).2 ≤ s.length)
    (t' : List Char) : Token.readName (s ++ d :: t') = Token.readName (s ++ d :: t) := by
  have hname : nameLength 0 (s ++ d :: t) ≤ s.length := by
    refine le_trans ?_ h
    unfold Token.readName
    dsimp only
    split
    · split
      · split
        · exact Nat.le_add_right_of_le (Nat.le_succ _)
        · exact Nat.le_succ _
      · exact Nat.le_succ _
    · exact Nat.le_refl _
  unfold Token.readName at h ⊢
  dsimp only at h ⊢
  rw [nameLength_append_of_le hd hname]
  generalize nameLength 0 (s ++ d :: t) = n at hname h ⊢
  rw [List.drop_append_of_le_length hname, List.take_append_of_le_length hname] at h ⊢
  rw [List.drop_append_of_le_length hname, List.take_append_of_le_length hname]
  cases hrest : s.drop n with
  | nil => rcases hd with rfl | rfl | rfl <;> rfl
  | cons c r =>
    rw [hrest] at h
    rw [List.cons_append] at h ⊢
    rw [List.cons_append]
    by_cases hc : c = '('
    · subst hc
      have hlen : r.length + 1 = s.length - n := by
        rw [← List.length_drop, hrest, List.length_cons]
      by_cases hurl : Token.isUrlName (s.take n) = true
      · have heq : urlLength? (r ++ d :: t') = urlLength? (r ++ d :: t) := by
          refine urlLength?_append_of_le hd (fun m hm => ?_) t'
          simp only [hurl, if_true, Option.mem_def.mp hm] at h
          omega
        simp only [heq]
      · simp only [hurl, Bool.false_eq_true, if_false]
    · split
      · next he => exact absurd (List.cons.inj he).1 hc
      · split
        · next he => exact absurd (List.cons.inj he).1 hc
        · rfl

/-- A token that ends before the barrier is the same, whatever follows the barrier. -/
theorem read_append_of_le {c : Char} {s t : List Char}
    (h : (Token.read c (s ++ d :: t)).2 ≤ s.length) (t' : List Char) :
    Token.read c (s ++ d :: t') = Token.read c (s ++ d :: t) := by
  unfold Token.read at h ⊢
  by_cases hsep : isSeparator c = true
  · have hstop : isSeparator d = false := by rcases hd with rfl | rfl | rfl <;> rfl
    rw [if_pos hsep, if_pos hsep, takeWhile_append_cons hstop, takeWhile_append_cons hstop]
  rw [if_neg hsep] at h ⊢
  rw [if_neg hsep]
  split
  -- brackets and the semicolon are tokens by themselves
  · rfl
  · rfl
  · rfl
  · rfl
  · rfl
  · rfl
  · rfl
  -- strings
  · rw [stringLength_append_of_le hd (by rcases hd with rfl | rfl | rfl <;> decide) h]
  · rw [stringLength_append_of_le hd (by rcases hd with rfl | rfl | rfl <;> decide) h]
  -- a slash, or a comment
  · cases s with
    | nil => rcases hd with rfl | rfl | rfl <;> rfl
    | cons x s =>
      by_cases hx : x = '*'
      · subst hx
        have hcomment := commentLength_append_of_le hd (Nat.le_of_succ_le_succ h) t'
        rw [List.cons_append, List.cons_append]
        exact congrArg (fun n => (Token.Kind.blank, n + 1)) hcomment
      · rw [List.cons_append, List.cons_append]
        split
        · next he => exact absurd (List.cons.inj he).1 hx
        · split
          · next he => exact absurd (List.cons.inj he).1 hx
          · rfl
  -- a hash and a name
  · rw [startsName_append hd s t' t, startsDigit_append s t' t, head?_append s t' t]
    split
    · next hname =>
      rw [if_pos hname] at h
      rw [nameLength_append_of_le hd h]
    · rfl
  -- an at-keyword
  · rw [startsName_append hd s t' t]
    dsimp only
    split
    · next hname =>
      rw [if_pos hname] at h
      have hle : nameLength 0 (s ++ d :: t) ≤ s.length := h
      rw [nameLength_append_of_le hd hle, List.take_append_of_le_length hle,
        List.take_append_of_le_length hle]
    · rfl
  -- the mark that opens a comment of a document
  · rw [isPrefixOf_append (by rcases hd with rfl | rfl | rfl <;> decide) s t' t]
  -- a number, a name or any other character, measured from the character itself on
  · simp only at h
    have hnumber := startsNumber_append hd (c :: s) t' t
    have hname := startsName_append hd (c :: s) t' t
    rw [List.cons_append, List.cons_append] at hnumber hname
    rw [hnumber, hname, isPrefixOf_append (by rcases hd with rfl | rfl | rfl <;> decide) s t' t]
    by_cases hn : startsNumber (c :: (s ++ d :: t)) = true
    · rw [if_pos hn] at h ⊢
      rw [if_pos hn]
      have hle : numberLength (c :: s ++ d :: t) ≤ (c :: s).length := Nat.le_add_of_sub_le h
      rw [← List.cons_append, numberLength_append_of_le hd hle, List.cons_append]
    rw [if_neg hn] at h ⊢
    rw [if_neg hn]
    split
    · rfl
    · next harrow =>
      rw [if_neg harrow] at h
      split
      · next hs =>
        rw [if_pos hs] at h
        have hle : (Token.readName (c :: s ++ d :: t)).2 ≤ (c :: s).length := Nat.le_add_of_sub_le h
        rw [← List.cons_append, readName_append_of_le hd hle, List.cons_append]
      · rfl

/-- The tokens before a barrier that none of them takes in are the same, whatever follows it. -/
theorem tokens_append {u t : List Char} {ts rest : List Token}
    (h : tokens (u ++ d :: t) = ts ++ rest) (hts : ts.flatMap Token.lexeme = u) (t' : List Char) :
    tokens (u ++ d :: t') = ts ++ tokens (d :: t') := by
  induction hlen : u.length using Nat.strong_induction_on generalizing u ts with
  | _ m ih =>
    cases ts with
    | nil =>
      obtain rfl : [] = u := hts
      rfl
    | cons tok ts =>
      cases u with
      | nil =>
        have hmem : tok ∈ tokens ([] ++ d :: t) := h ▸ List.mem_cons_self ..
        exact absurd (List.append_eq_nil_iff.mp hts).1 (lexeme_ne_nil_of_mem_tokens hmem)
      | cons c s =>
        rw [List.cons_append, tokens_cons, List.cons_append] at h
        obtain ⟨htok, htail⟩ := List.cons.inj h
        have htext : (s ++ d :: t).take (Token.read c (s ++ d :: t)).2 ++
            ts.flatMap Token.lexeme = s := by
          rw [List.flatMap_cons, ← htok] at hts
          exact (List.cons.inj hts).2
        have hle : (Token.read c (s ++ d :: t)).2 ≤ s.length := by
          have hl := congrArg List.length htext
          simp only [List.length_append, List.length_take, List.length_cons] at hl
          omega
        have hread := read_append_of_le hd hle t'
        rw [List.cons_append, tokens_cons, hread, List.cons_append, ← htok]
        generalize (Token.read c (s ++ d :: t)).2 = n at hle htail htext ⊢
        rw [List.take_append_of_le_length hle] at htext
        rw [List.take_append_of_le_length hle, List.take_append_of_le_length hle]
        rw [List.drop_append_of_le_length hle] at htail ⊢
        have hdrop : ts.flatMap Token.lexeme = s.drop n :=
          List.append_cancel_left (htext.trans (List.take_append_drop n s).symm)
        rw [List.length_cons] at hlen
        rw [ih (s.drop n).length (by rw [List.length_drop]; omega) htail hdrop rfl]

end Barrier

/-! ## Signs -/

/-- The character that the tokens of a kind consist of, for the kinds whose pieces keep no text. -/
def Token.Kind.sign? : Token.Kind → Option Char
  | .semicolon => some ';'
  | .opening .curly => some '\x7b'
  | .closing .curly => some '\x7d'
  | _ => none

theorem sign?_readName (s : List Char) : (Token.readName s).1.sign? = none := by
  unfold Token.readName
  dsimp only
  split
  · split
    · split <;> rfl
    · rfl
  · rfl

/-- A semicolon or a curly bracket is a token of that one character. -/
theorem read_of_sign? {c x : Char} {s : List Char} (h : (Token.read c s).1.sign? = some x) :
    c = x ∧ (Token.read c s).2 = 0 := by
  unfold Token.read at h ⊢
  split at h
  · cases h
  · next hsep =>
    rw [if_neg hsep]
    split at h
    · cases h
    · cases h
    · cases h
      exact ⟨rfl, rfl⟩
    · cases h
    · cases h
    · cases h
      exact ⟨rfl, rfl⟩
    · cases h
      exact ⟨rfl, rfl⟩
    · cases h
    · cases h
    · split at h <;> cases h
    · split at h <;> cases h
    · split at h <;> cases h
    · split at h <;> cases h
    · split at h
      · cases h
      · split at h
        · cases h
        · split at h
          · exact absurd (h.symm.trans (sign?_readName _)) (by simp)
          · cases h

/-- What the tokens of a text have in common: each has a text, and a sign is the text of its
token. -/
structure Token.Sound (tok : Token) : Prop where
  ne_nil : tok.lexeme ≠ []
  lexeme_eq : ∀ x, tok.kind.sign? = some x → tok.lexeme = [x]

theorem sound_of_mem_tokens {w : List Char} {tok : Token} (htok : tok ∈ tokens w) : tok.Sound := by
  refine ⟨lexeme_ne_nil_of_mem_tokens htok, fun x hx => ?_⟩
  induction hlen : w.length using Nat.strong_induction_on generalizing w with
  | _ m ih =>
    cases w with
    | nil => exact absurd htok (by simp)
    | cons c s =>
      rw [tokens_cons] at htok
      rcases List.mem_cons.mp htok with rfl | htok
      · obtain ⟨rfl, hzero⟩ := read_of_sign? hx
        dsimp only
        rw [hzero, List.take_zero]
      · rw [List.length_cons] at hlen
        exact ih _ (by rw [List.length_drop]; omega) htok rfl

/-! ## Pieces -/

namespace Piece

variable {stack : List Bracket} {held : List (List Char)}

/-- A token ends a piece, or it is held back with those before it inside a bracket. -/
theorem group_cons (hheld : stack = [] → held = []) {tok : Token} (htok : tok.Sound) :
    (∃ p : Piece, p.text = held.reverse.flatten ++ tok.lexeme ∧ (p.isInert = false → stack = []) ∧
      ∀ ts, group stack held (tok :: ts) = p :: group [] [] ts) ∨
    ∃ b bs, ∀ ts, group stack held (tok :: ts) = group (b :: bs) (tok.lexeme :: held) ts := by
  obtain ⟨kind, lexeme⟩ := tok
  cases stack with
  | nil =>
    obtain rfl := hheld rfl
    have hsign : ∀ {x}, kind.sign? = some x → [x] = lexeme := fun h => (htok.lexeme_eq _ h).symm
    cases kind with
    | blank => exact Or.inl ⟨.blank lexeme, rfl, fun _ => rfl, fun _ => rfl⟩
    | atKeyword name => exact Or.inl ⟨.keyword name lexeme, rfl, fun _ => rfl, fun _ => rfl⟩
    | semicolon => exact Or.inl ⟨.semicolon, hsign rfl, fun _ => rfl, fun _ => rfl⟩
    | opening b =>
      cases b with
      | round => exact Or.inr ⟨.round, [], fun _ => rfl⟩
      | square => exact Or.inr ⟨.square, [], fun _ => rfl⟩
      | curly => exact Or.inl ⟨.openBlock, hsign rfl, fun _ => rfl, fun _ => rfl⟩
    | closing b =>
      cases b with
      | round => exact Or.inl ⟨.chunk lexeme, rfl, fun _ => rfl, fun _ => rfl⟩
      | square => exact Or.inl ⟨.chunk lexeme, rfl, fun _ => rfl, fun _ => rfl⟩
      | curly => exact Or.inl ⟨.closeBlock, hsign rfl, fun _ => rfl, fun _ => rfl⟩
    | plain => exact Or.inl ⟨.chunk lexeme, rfl, fun _ => rfl, fun _ => rfl⟩
  | cons b bs =>
    cases hnest : nest (b :: bs) kind with
    | nil =>
      refine Or.inl ⟨.chunk (lexeme :: held).reverse.flatten, by simp [text], by simp [isInert],
        fun ts => ?_⟩
      rw [group]
      dsimp only
      rw [hnest]
    | cons b' bs' =>
      refine Or.inr ⟨b', bs', fun ts => ?_⟩
      rw [group]
      dsimp only
      rw [hnest]

/-- Grouping keeps the text. -/
theorem textOf_group (stack : List Bracket) {held : List (List Char)}
    (hheld : stack = [] → held = []) {ts : List Token} (hts : ∀ tok ∈ ts, tok.Sound) :
    textOf (group stack held ts) = held.reverse.flatten ++ ts.flatMap Token.lexeme := by
  induction ts generalizing stack held with
  | nil =>
    cases stack with
    | nil =>
      obtain rfl := hheld rfl
      rfl
    | cons b bs => simp [group, textOf, text]
  | cons tok ts ih =>
    have hrest : ∀ tok ∈ ts, tok.Sound := fun tok' h => hts tok' (List.mem_cons_of_mem _ h)
    rcases group_cons hheld (hts tok (List.mem_cons_self ..)) with ⟨p, hp, -, h⟩ | ⟨b, bs, h⟩
    · have htail := ih [] (fun _ => rfl) hrest
      rw [h, textOf, List.flatMap_cons, ← textOf, htail, hp, List.flatMap_cons, List.append_assoc]
      rfl
    · rw [h, ih (b :: bs) (by simp) hrest, List.flatMap_cons, List.reverse_cons,
        List.flatten_append, List.flatten_singleton, List.append_assoc]

/-- A sign in a list of pieces is a token of its own, and no bracket is open before it. -/
theorem group_append (hheld : stack = [] → held = []) {ts : List Token}
    (hts : ∀ tok ∈ ts, tok.Sound) {ps qs : List Piece} {q : Piece} (hq : q.isInert = false)
    (h : group stack held ts = ps ++ q :: qs) :
    ∃ ts' rest, ts = ts' ++ rest ∧
      ∀ more, group stack held (ts' ++ more) = ps ++ group [] [] more := by
  induction ts generalizing stack held ps with
  | nil =>
    have hmem : q ∈ group stack held [] := h ▸ List.mem_append_right _ (List.mem_cons_self ..)
    cases stack with
    | nil => exact absurd hmem (by simp [group])
    | cons b bs =>
      obtain rfl : q = chunk held.reverse.flatten := List.mem_singleton.mp hmem
      exact absurd hq (by simp [isInert])
  | cons tok ts ih =>
    have hrest : ∀ tok ∈ ts, tok.Sound := fun tok' h => hts tok' (List.mem_cons_of_mem _ h)
    rcases group_cons hheld (hts tok (List.mem_cons_self ..)) with ⟨p, -, hp, hg⟩ | ⟨b, bs, hg⟩
    · rw [hg] at h
      cases ps with
      | nil =>
        obtain ⟨rfl, -⟩ := List.cons.inj h
        obtain rfl := hp hq
        obtain rfl := hheld rfl
        exact ⟨[], tok :: ts, rfl, fun _ => rfl⟩
      | cons p' ps =>
        rw [List.cons_append] at h
        obtain ⟨rfl, htail⟩ := List.cons.inj h
        obtain ⟨ts', rest, rfl, hmore⟩ := ih (fun _ => rfl) hrest htail
        refine ⟨tok :: ts', rest, rfl, fun more => ?_⟩
        rw [List.cons_append, hg, hmore, List.cons_append]
    · rw [hg] at h
      obtain ⟨ts', rest, rfl, hmore⟩ := ih (by simp) hrest h
      refine ⟨tok :: ts', rest, rfl, fun more => ?_⟩
      rw [List.cons_append, hg, hmore]

/-- A piece that is no part of a head is a barrier, and is read as such wherever an item may
begin. -/
theorem exists_barrier {q : Piece} (hq : q.isInert = false) :
    ∃ d, IsBarrier d ∧ q.text = [d] ∧ ∀ t, pieces (d :: t) = q :: pieces t := by
  have hread : ∀ d t, pieces (d :: t) = group [] []
      (⟨(Token.read d t).1, d :: t.take (Token.read d t).2⟩ ::
        tokens (t.drop (Token.read d t).2)) :=
    fun d t => by rw [pieces, tokens_cons]
  cases q with
  | semicolon => exact ⟨';', Or.inl rfl, rfl, hread ';'⟩
  | openBlock => exact ⟨'\x7b', Or.inr (Or.inl rfl), rfl, hread '\x7b'⟩
  | closeBlock => exact ⟨'\x7d', Or.inr (Or.inr rfl), rfl, hread '\x7d'⟩
  | blank | keyword | chunk => exact absurd hq (by simp [isInert])

end Piece

/-- The pieces of a text concatenate to the text. -/
theorem textOf_pieces (w : List Char) : textOf (pieces w) = w := by
  rw [pieces, Piece.textOf_group [] (fun _ => rfl) fun _ h => sound_of_mem_tokens h,
    flatMap_lexeme_tokens]
  rfl

/-- The pieces up to a barrier that is a piece itself are the same, whatever follows it. -/
theorem pieces_textOf_append {w : List Char} {ps qs : List Piece} {q : Piece}
    (hq : q.isInert = false) (h : pieces w = ps ++ q :: qs) (t : List Char) :
    pieces (textOf (ps ++ [q]) ++ t) = ps ++ q :: pieces t := by
  obtain ⟨d, hd, hqd, hread⟩ := Piece.exists_barrier hq
  obtain ⟨ts, rest, hts, hmore⟩ :=
    Piece.group_append (fun _ => rfl) (fun _ => sound_of_mem_tokens) hq h
  have hw : w = textOf ps ++ d :: textOf qs := by
    calc w
      _ = textOf (ps ++ q :: qs) := by rw [← h, textOf_pieces]
      _ = textOf ps ++ (q.text ++ textOf qs) := textOf_append ps (q :: qs)
      _ = textOf ps ++ d :: textOf qs := by rw [hqd, List.singleton_append]
  have hlexemes : ts.flatMap Token.lexeme = textOf ps := by
    have hsound : ∀ tok ∈ ts, tok.Sound := fun tok' h' =>
      sound_of_mem_tokens (hts ▸ List.mem_append_left _ h')
    have htext := Piece.textOf_group [] (fun _ => rfl) hsound
    have hall := hmore []
    rw [List.append_nil, Piece.group, List.append_nil] at hall
    rw [hall] at htext
    exact htext.symm
  have hsplit : textOf (ps ++ [q]) ++ t = textOf ps ++ d :: t := by
    rw [textOf_append, List.append_assoc, textOf, textOf, List.flatMap_singleton, hqd,
      List.singleton_append]
  rw [hw] at hts
  rw [hsplit, pieces, tokens_append hd hts hlexemes t, hmore, ← hread]
  rfl

/-- The pieces before a barrier that is a piece itself are the same, whatever follows it. -/
theorem pieces_append {d : Char} {q : Piece} (hq : q.isInert = false) (hqd : q.text = [d])
    {u : List Char} {ps : List Piece} (h : pieces (u ++ [d]) = ps ++ [q]) (t : List Char) :
    pieces (u ++ d :: t) = ps ++ pieces (d :: t) := by
  obtain ⟨d', -, hqd', hread⟩ := Piece.exists_barrier hq
  obtain rfl : d' = d := List.singleton_inj.mp (hqd'.symm.trans hqd)
  have hmore := pieces_textOf_append hq h t
  rwa [← h, textOf_pieces, List.append_assoc, List.singleton_append, ← hread] at hmore

end StyleTree.Css
