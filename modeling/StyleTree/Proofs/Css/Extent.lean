import Mathlib.Data.List.TakeWhile
import StyleTree.Css.Token

/-!
# How far tokens reach

A token is cut by measuring functions, one for each kind of lexeme, and each of them may look at the
text as far as it likes.  What matters for reading a printed text back is that none of them looks
past a character that cannot stand inside a lexeme.

Call a character *inner* if it can follow the first character of a name, a number, a hash or one of
the comment marks of documents.  `reach` counts the inner characters that a text starts with.

* `nameLength_le_reach`, `numberLength_le_reach`: names and numbers end within reach.  An escape
  would lead a name out of reach, so the text must be `Unescaped`: no backslash comes right after
  it.
* `Extent`: what the first token of a text can be, if it is not blank and neither a string, a
  comment nor an address.
* `extent_read`: the tokenizer cuts within the extent.
-/

namespace StyleTree.Css

open StyleTree.Text

/-- The characters that can follow the first one inside a lexeme. -/
def isInner (c : Char) : Bool :=
  isNameChar c || c == '+' || c == '.' || c == '%' || c == '!' || c == '>'

/-- The number of inner characters that a text starts with. -/
def reach (s : List Char) : Nat :=
  (s.takeWhile isInner).length

/-- No backslash stands right after the inner characters that a text starts with. -/
def Unescaped (s : List Char) : Prop :=
  (s.dropWhile isInner).head? ≠ some '\\'

theorem isInner_of_isNameChar {c : Char} (h : isNameChar c = true) : isInner c = true := by
  simp [isInner, h]

theorem isInner_of_isDigit {c : Char} (h : c.isDigit = true) : isInner c = true :=
  isInner_of_isNameChar (by simp [isNameChar, h])

/-! ## Reach -/

theorem reach_cons {c : Char} (hc : isInner c = true) (s : List Char) :
    reach (c :: s) = reach s + 1 := by
  rw [reach, List.takeWhile_cons_of_pos hc, List.length_cons, reach]

theorem reach_cons_of_not {c : Char} (hc : isInner c = false) (s : List Char) :
    reach (c :: s) = 0 := by
  rw [reach, List.takeWhile_cons_of_neg (by simp [hc]), List.length_nil]

theorem Unescaped.tail {c : Char} {s : List Char} (hc : isInner c = true)
    (h : Unescaped (c :: s)) : Unescaped s := by
  rwa [Unescaped, List.dropWhile_cons_of_pos hc] at h

/-- A cut within reach takes from the reach what it takes from the text. -/
theorem reach_drop {n : Nat} {s : List Char} (h : n ≤ reach s) :
    reach (s.drop n) = reach s - n := by
  induction n generalizing s with
  | zero => rfl
  | succ n ih =>
    cases s with
    | nil => exact absurd h (by simp [reach])
    | cons c s =>
      by_cases hc : isInner c = true
      · rw [reach_cons hc] at h ⊢
        rw [List.drop_succ_cons, ih (by omega)]
        omega
      · rw [reach_cons_of_not (by simpa using hc)] at h
        omega

theorem Unescaped.drop {n : Nat} {s : List Char} (hs : Unescaped s) (h : n ≤ reach s) :
    Unescaped (s.drop n) := by
  induction n generalizing s with
  | zero => exact hs
  | succ n ih =>
    cases s with
    | nil => exact hs
    | cons c s =>
      by_cases hc : isInner c = true
      · rw [reach_cons hc] at h
        exact ih (hs.tail hc) (by omega)
      · rw [reach_cons_of_not (by simpa using hc)] at h
        omega

/-- What is cut off within reach is inner. -/
theorem isInner_of_mem_take {n : Nat} {s : List Char} (h : n ≤ reach s) {c : Char}
    (hc : c ∈ s.take n) : isInner c = true := by
  have hpre : s.take n <+: s.takeWhile isInner := by
    refine List.prefix_of_prefix_length_le (List.take_prefix n s) (List.takeWhile_prefix _) ?_
    exact (List.length_take_le n s).trans h
  exact List.mem_takeWhile_imp (hpre.subset hc)

/-- A run of characters ends at the latest where a character of another kind follows. -/
theorem takeWhile_append_cons {p : Char → Bool} {d : Char} (hd : p d = false) (s t : List Char) :
    (s ++ d :: t).takeWhile p = s.takeWhile p := by
  rw [List.takeWhile_append, List.takeWhile_cons_of_neg (by simp [hd]), List.append_nil]
  split
  · next h => exact ((List.takeWhile_prefix p).eq_of_length h).symm
  · rfl

theorem reach_append_cons {d : Char} (hd : isInner d = false) (s t : List Char) :
    reach (s ++ d :: t) = reach s := by
  rw [reach, takeWhile_append_cons hd, reach]

theorem reach_le_length (s : List Char) : reach s ≤ s.length :=
  (List.takeWhile_prefix _).length_le

theorem unescaped_append_cons {d : Char} (hd : isInner d = false) (hslash : d ≠ '\\')
    {s : List Char} (hs : '\\' ∉ s) (t : List Char) : Unescaped (s ++ d :: t) := by
  induction s with
  | nil =>
    rw [List.nil_append, Unescaped, List.dropWhile_cons_of_neg (by simp [hd])]
    exact fun h => hslash (Option.some.inj h)
  | cons c s ih =>
    rw [List.cons_append, Unescaped]
    by_cases hc : isInner c = true
    · rw [List.dropWhile_cons_of_pos hc]
      exact ih fun h => hs (List.mem_cons_of_mem _ h)
    · rw [List.dropWhile_cons_of_neg hc]
      intro h
      exact hs (Option.some.inj h ▸ List.mem_cons_self ..)

/-! ## Names and numbers -/

theorem nameLength_le_reach {s : List Char} (h : Unescaped s) : nameLength 0 s ≤ reach s := by
  induction s with
  | nil => simp [nameLength]
  | cons c s ih =>
    rw [nameLength]
    by_cases hname : isNameChar c = true
    · have hc := isInner_of_isNameChar hname
      rw [if_pos hname, reach_cons hc]
      exact Nat.succ_le_succ (ih (h.tail hc))
    · rw [if_neg hname]
      split
      · next hslash =>
        -- a backslash is not inner, so it would be what stands right after the reach
        simp only [Bool.and_eq_true, beq_iff_eq] at hslash
        rw [hslash.1] at h
        exact absurd (by rfl) h
      · exact Nat.zero_le _

theorem digitsLength_le_reach (s : List Char) : digitsLength s ≤ reach s := by
  unfold digitsLength reach
  induction s with
  | nil => exact Nat.le_refl _
  | cons c s ih =>
    by_cases hc : c.isDigit = true
    · rw [List.takeWhile_cons_of_pos hc, List.takeWhile_cons_of_pos (isInner_of_isDigit hc)]
      exact Nat.succ_le_succ ih
    · rw [List.takeWhile_cons_of_neg hc]
      exact Nat.zero_le _

theorem signLength_le_reach (s : List Char) : signLength s ≤ reach s := by
  unfold signLength
  split
  · next c s =>
    split
    · next hc =>
      have hinner : isInner c = true := by
        simp only [Bool.or_eq_true, beq_iff_eq] at hc
        rcases hc with rfl | rfl <;> rfl
      rw [reach_cons hinner]
      exact Nat.succ_le_succ (Nat.zero_le _)
    · exact Nat.zero_le _
  · exact Nat.zero_le _

theorem fractionLength_le_reach (s : List Char) : fractionLength s ≤ reach s := by
  unfold fractionLength
  split
  · next d s =>
    split
    · next hd =>
      rw [reach_cons (by rfl), reach_cons (isInner_of_isDigit hd)]
      exact Nat.add_le_add_right (digitsLength_le_reach s) 2
    · exact Nat.zero_le _
  · exact Nat.zero_le _

theorem exponentLength_le_reach (s : List Char) : exponentLength s ≤ reach s := by
  unfold exponentLength
  split
  · next c s =>
    split
    · next hc =>
      have hinner : isInner c = true := by
        simp only [Bool.or_eq_true, beq_iff_eq] at hc
        rcases hc with rfl | rfl <;> rfl
      have hsign := signLength_le_reach s
      have hdigits := digitsLength_le_reach (s.drop (signLength s))
      rw [reach_drop hsign] at hdigits
      rw [reach_cons hinner]
      dsimp only
      split <;> omega
    · exact Nat.zero_le _
  · exact Nat.zero_le _

theorem unitLength_le_reach {s : List Char} (h : Unescaped s) : unitLength s ≤ reach s := by
  unfold unitLength
  split
  · rw [reach_cons (by rfl)]
    exact Nat.succ_le_succ (Nat.zero_le _)
  · split
    · exact nameLength_le_reach h
    · exact Nat.zero_le _

/-- A number ends within reach, because each of its parts ends within what the parts before it have
left. -/
theorem numberLength_le_reach {s : List Char} (h : Unescaped s) : numberLength s ≤ reach s := by
  have hpart : ∀ {n : Nat} {f : List Char → Nat}, n ≤ reach s →
      f (s.drop n) ≤ reach (s.drop n) → n + f (s.drop n) ≤ reach s := by
    intro n f hn hf
    rw [reach_drop hn] at hf
    omega
  unfold numberLength
  have hsign := signLength_le_reach s
  have hdigits := hpart hsign (digitsLength_le_reach _)
  have hfraction := hpart hdigits (fractionLength_le_reach _)
  have hexponent := hpart hfraction (exponentLength_le_reach _)
  exact hpart hexponent (unitLength_le_reach (h.drop hexponent))

/-! ## The first token of a text -/

/-- The characters that open brackets. -/
def Bracket.left : Bracket → Char
  | round => '('
  | square => '['
  | curly => '\x7b'

/-- The characters that close brackets. -/
def Bracket.right : Bracket → Char
  | round => ')'
  | square => ']'
  | curly => '\x7d'

/-- What the first token of a text can be, and how many characters it can have after its first one,
where the text does not start with a separator, a string, a comment, an address or an escape. -/
inductive Extent (c : Char) (s : List Char) : Token.Kind × Nat → Prop
  | opening (b : Bracket) (hc : c = b.left) : Extent c s (.opening b, 0)
  | closing (b : Bracket) (hc : c = b.right) : Extent c s (.closing b, 0)
  | keyword {n : Nat} (hc : c = '@') (hn : n ≤ reach s) :
      Extent c s (.atKeyword (decodeName (s.take n)), n)
  | plain {n : Nat} (hc : ∀ b : Bracket, c ≠ b.left ∧ c ≠ b.right) (hn : n ≤ reach s) :
      Extent c s (.plain, n)
  /-- A name and the parenthesis after it. -/
  | function {n : Nat} (hc : isInner c = true) (hn : n ≤ reach s)
      (hs : (s.drop n).head? = some '(') : Extent c s (.opening .round, n + 1)

/-- Without escapes a name spells itself, the null character apart. -/
theorem decodeName_of_notMem {s : List Char} (h : '\\' ∉ s) :
    decodeName s = s.map fun c => if c = '\x00' then replacement else c := by
  unfold decodeName
  induction s with
  | nil => rfl
  | cons c s ih =>
    rw [decodeFrom, if_neg fun hc : c = '\\' => h (hc ▸ List.mem_cons_self ..),
      ih fun hs => h (List.mem_cons_of_mem _ hs), List.map_cons]

/-- Without escapes only a name of the three letters themselves starts an address. -/
theorem map_toLower_of_isUrlName {s : List Char} (h : '\\' ∉ s) (hurl : Token.isUrlName s = true) :
    s.map Char.toLower = ['u', 'r', 'l'] := by
  unfold Token.isUrlName at hurl
  rw [beq_iff_eq, decodeName_of_notMem h, List.map_map] at hurl
  rw [← hurl]
  refine List.map_congr_left fun c hc => ?_
  by_cases hnull : c = '\x00'
  · -- a null character would be spelt by the replacement, which is none of the three letters
    have hmem : ((Char.toLower ∘ fun c => if c = '\x00' then replacement else c) c) ∈
        ['u', 'r', 'l'] := hurl ▸ List.mem_map_of_mem hc
    rw [hnull] at hmem
    exact absurd hmem (by decide)
  · simp [hnull]

theorem isInner_of_startsNumber {c : Char} {s : List Char} (h : startsNumber (c :: s) = true) :
    isInner c = true := by
  simp only [startsNumber, startsDigit, Bool.or_eq_true, Bool.and_eq_true, beq_iff_eq] at h
  rcases h with (h | h) | ⟨rfl | rfl, -⟩
  · exact isInner_of_isDigit h
  · unfold startsFraction at h
    split at h
    · next he =>
      cases he
      rfl
    · exact absurd h (by simp)
  · rfl
  · rfl

theorem isNameChar_of_startsName {c : Char} {s : List Char} (hc : c ≠ '\\')
    (h : startsName (c :: s) = true) : isNameChar c = true := by
  unfold startsName at h
  split at h
  · next he =>
    cases he
    rfl
  · next he =>
    cases he
    exact absurd rfl hc
  · next he =>
    cases he
    simp [isNameChar, h]
  · exact absurd h (by simp)

/-- A name is read alone or with the parenthesis that makes it a function. -/
theorem extent_readName {c : Char} {s : List Char} (hc : isNameChar c = true)
    (hplain : ∀ b : Bracket, c ≠ b.left ∧ c ≠ b.right) (hs : Unescaped s)
    (hurl : ∀ n ≤ reach s, (s.drop n).head? = some '(' →
      (c :: s.take n).map Char.toLower ≠ ['u', 'r', 'l']) :
    Extent c s ((Token.readName (c :: s)).1, (Token.readName (c :: s)).2 - 1) := by
  have hlen : nameLength 0 (c :: s) = nameLength 0 s + 1 := by rw [nameLength, if_pos hc]
  have hreach := nameLength_le_reach hs
  unfold Token.readName
  dsimp only
  rw [hlen, List.drop_succ_cons, List.take_succ_cons]
  generalize nameLength 0 s = n at hreach ⊢
  split
  · next rest hdrop =>
    have hhead : (s.drop n).head? = some '(' := by rw [hdrop]; rfl
    have hnot : Token.isUrlName (c :: s.take n) = false := by
      by_contra h
      refine hurl n hreach hhead (map_toLower_of_isUrlName ?_ (by simpa using h))
      intro hmem
      rcases List.mem_cons.mp hmem with rfl | hmem
      · exact absurd hc (by decide)
      · exact absurd (isInner_of_mem_take hreach hmem) (by decide)
    rw [hnot]
    exact Extent.function (isInner_of_isNameChar hc) hreach hhead
  · exact Extent.plain hplain hreach

/-- The tokenizer cuts within the extent. -/
theorem extent_read {c : Char} {s : List Char} (hsep : isSeparator c = false)
    (hc : c ∉ ['\\', '"', '\'', ';']) (hcomment : c = '/' → s.head? ≠ some '*') (hs : Unescaped s)
    (hurl : ∀ n ≤ reach s, (s.drop n).head? = some '(' →
      (c :: s.take n).map Char.toLower ≠ ['u', 'r', 'l']) :
    Extent c s (Token.read c s) := by
  simp only [List.mem_cons, List.not_mem_nil, or_false, not_or] at hc
  obtain ⟨hslash, hquote, hapostrophe, hsemicolon⟩ := hc
  unfold Token.read
  rw [if_neg (by simp [hsep])]
  split
  · exact Extent.opening .round rfl
  · exact Extent.opening .square rfl
  · exact Extent.opening .curly rfl
  · exact Extent.closing .round rfl
  · exact Extent.closing .square rfl
  · exact Extent.closing .curly rfl
  · exact absurd rfl hsemicolon
  · exact absurd rfl hquote
  · exact absurd rfl hapostrophe
  · split
    · exact absurd rfl (hcomment rfl)
    · exact Extent.plain (by rintro (_ | _ | _) <;> decide) (Nat.zero_le _)
  · split
    · exact Extent.plain (by rintro (_ | _ | _) <;> decide) (nameLength_le_reach hs)
    · exact Extent.plain (by rintro (_ | _ | _) <;> decide) (Nat.zero_le _)
  · split
    · exact Extent.keyword rfl (nameLength_le_reach hs)
    · exact Extent.plain (by rintro (_ | _ | _) <;> decide) (Nat.zero_le _)
  · split
    · next hmark =>
      obtain ⟨rest, rfl⟩ := List.isPrefixOf_iff_prefix.mp hmark
      refine Extent.plain (by rintro (_ | _ | _) <;> decide) ?_
      show 3 ≤ reach ('!' :: '-' :: '-' :: rest)
      rw [reach_cons (by rfl), reach_cons (by rfl), reach_cons (by rfl)]
      omega
    · exact Extent.plain (by rintro (_ | _ | _) <;> decide) (Nat.zero_le _)
  · next h1 h2 h3 h4 h5 h6 _ _ _ _ _ _ _ =>
    have hplain : ∀ b : Bracket, c ≠ b.left ∧ c ≠ b.right := by
      rintro (_ | _ | _)
      · exact ⟨h1, h4⟩
      · exact ⟨h2, h5⟩
      · exact ⟨h3, h6⟩
    split
    · next hnumber =>
      have hinner := isInner_of_startsNumber hnumber
      have hle := numberLength_le_reach (s := c :: s)
        (by rwa [Unescaped, List.dropWhile_cons_of_pos hinner])
      rw [reach_cons hinner] at hle
      exact Extent.plain hplain (by omega)
    · split
      · next hmark =>
        simp only [Bool.and_eq_true] at hmark
        obtain ⟨rest, rfl⟩ := List.isPrefixOf_iff_prefix.mp hmark.2
        refine Extent.plain hplain ?_
        show 2 ≤ reach ('-' :: '>' :: rest)
        rw [reach_cons (by rfl), reach_cons (by rfl)]
        omega
      · split
        · next hname =>
          exact extent_readName (isNameChar_of_startsName hslash hname) hplain hs hurl
        · exact Extent.plain hplain (Nat.zero_le _)

end StyleTree.Css
