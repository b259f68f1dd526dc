import Mathlib.Data.List.DropRight
import Mathlib.Data.List.TakeDrop
import StyleTree.Proofs.Css.Plain

/-!
# Heads of items

The head of an item is printed from a name, a prelude or a value, with blanks and a colon between
them, and is read back piece by piece.  Which pieces these are is of no interest: an item is made
from the text of its head, trimmed, and from whether the head begins with an at-keyword.

* `Spells u item`: wherever a delimiter follows it, the text `u` is read as a head, and `item` says
  what becomes of the head with a block and without one.
* `SpellsAt d u item`: the same of the delimiter `d` alone.
* `spells_plain`: a text that starts with neither an at-sign nor a blank.
* `spells_keyword`: an at-sign, a name and a text.
-/

namespace StyleTree.Text

/-! ## Trimming -/

variable {c : Char} {s t u : List Char}

theorem trimEnd_append_blanks (s : List Char) (ht : ∀ c ∈ t, isBlank c = true) :
    trimEnd (s ++ t) = trimEnd s := by
  unfold trimEnd
  rw [List.reverse_append, List.dropWhile_append_of_pos fun c hc => ht c (List.mem_reverse.mp hc)]

theorem trimEnd_append_cons (s : List Char) (hc : isBlank c = false) (t : List Char) :
    trimEnd (s ++ c :: t) = s ++ c :: trimEnd t := by
  unfold trimEnd
  rw [List.reverse_append, List.reverse_cons, List.append_assoc, List.singleton_append,
    List.dropWhile_append]
  split
  · next h =>
    rw [List.isEmpty_iff.mp h, List.dropWhile_cons_of_neg (by simp [hc])]
    simp
  · simp

/-- Blanks at the end of a text are trimmed. -/
theorem trim_append_blanks (s : List Char) (ht : ∀ c ∈ t, isBlank c = true) :
    trim (s ++ t) = trim s := by
  unfold trim trimStart
  rw [List.dropWhile_append]
  split
  · next h =>
    rw [List.isEmpty_iff.mp h, List.dropWhile_eq_nil_iff.mpr ht]
  · exact trimEnd_append_blanks _ ht

/-- A blank at the start of a text is trimmed. -/
theorem trim_cons_blank (hc : isBlank c = true) (s : List Char) : trim (c :: s) = trim s := by
  rw [trim, trimStart, List.dropWhile_cons_of_pos hc]
  rfl

theorem trim_trimEnd (s : List Char) : trim (trimEnd s) = trim s := by
  have hsplit : s = trimEnd s ++ (s.reverse.takeWhile isBlank).reverse := by
    unfold trimEnd
    rw [← List.reverse_append, List.takeWhile_append_dropWhile, List.reverse_reverse]
  nth_rewrite 2 [hsplit]
  refine (trim_append_blanks _ fun c hc => ?_).symm
  exact List.mem_takeWhile_imp (List.mem_reverse.mp hc)

theorem length_trim_le (s : List Char) : (trim s).length ≤ s.length := by
  unfold trim trimEnd trimStart
  rw [List.length_reverse]
  refine (List.dropWhile_suffix _).length_le.trans ?_
  rw [List.length_reverse]
  exact (List.dropWhile_suffix _).length_le

/-- A trimmed text does not start with a blank. -/
theorem isBlank_eq_false_of_trim (h : trim (c :: s) = c :: s) : isBlank c = false := by
  by_contra hc
  rw [trim_cons_blank (by simpa using hc)] at h
  have hlen := length_trim_le s
  rw [h, List.length_cons] at hlen
  omega

/-- A trimmed text before a character that is not blank protects itself and the character. -/
theorem trim_append_cons (hs : trim s = s) (hc : isBlank c = false) (t : List Char) :
    trim (s ++ c :: t) = s ++ c :: trimEnd t := by
  have hstart : trimStart (s ++ c :: t) = s ++ c :: t := by
    cases s with
    | nil => exact List.dropWhile_cons_of_neg (by simp [hc])
    | cons d s => exact List.dropWhile_cons_of_neg (by simp [isBlank_eq_false_of_trim hs])
  rw [trim, hstart, trimEnd_append_cons s hc]

/-- A text is divided at the first occurrence of a character. -/
theorem splitAt?_append (hs : c ∉ s) (t : List Char) : splitAt? c (s ++ c :: t) = some (s, t) := by
  have hpos : ∀ d ∈ s, (d != c) = true := fun d hd => bne_iff_ne.mpr fun h => hs (h ▸ hd)
  unfold splitAt?
  rw [List.span_eq_takeWhile_dropWhile, List.takeWhile_append_of_pos hpos,
    List.dropWhile_append_of_pos hpos, List.takeWhile_cons_of_neg (by simp),
    List.dropWhile_cons_of_neg (by simp), List.append_nil]

/-- Trimming takes away blanks at both ends and nothing else. -/
theorem exists_trim (s : List Char) :
    ∃ l r, s = l ++ trim s ++ r ∧ (∀ c ∈ l, isBlank c = true) ∧ ∀ c ∈ r, isBlank c = true := by
  refine ⟨s.takeWhile isBlank, ((trimStart s).reverse.takeWhile isBlank).reverse, ?_,
    fun c hc => List.mem_takeWhile_imp hc,
    fun c hc => List.mem_takeWhile_imp (List.mem_reverse.mp hc)⟩
  have hstart : trimStart s = trim s ++ ((trimStart s).reverse.takeWhile isBlank).reverse := by
    rw [trim, trimEnd, ← List.reverse_append, List.takeWhile_append_dropWhile, List.reverse_reverse]
  rw [List.append_assoc, ← hstart, trimStart, List.takeWhile_append_dropWhile]

/-- What is trimmed stays as it is. -/
theorem trim_trim (s : List Char) : trim (trim s) = trim s := by
  have hstart : trimStart (trimStart s) = trimStart s := List.dropWhile_idempotent _ _
  calc trim (trim s)
    _ = trim (trimStart s) := trim_trimEnd _
    _ = trim s := by rw [trim, hstart, trim]

theorem append_of_splitAt?_eq_some (h : splitAt? c s = some (t, u)) : s = t ++ c :: u := by
  unfold splitAt? at h
  rw [List.span_eq_takeWhile_dropWhile] at h
  split at h
  · cases h
  · next before d after hspan =>
    obtain ⟨rfl, rfl⟩ := Prod.mk.inj (Option.some.inj h)
    obtain ⟨htake, hdrop⟩ := Prod.mk.inj hspan
    have hd : (d != c) = false := by
      have hhead := List.head?_dropWhile_not (fun x => x != c) s
      rw [hdrop] at hhead
      simpa using hhead
    rw [← List.takeWhile_append_dropWhile (p := fun x => x != c) (l := s), htake, hdrop,
      (bne_eq_false_iff_eq.mp hd)]

theorem notMem_of_splitAt?_eq_none (h : splitAt? c s = none) : c ∉ s := by
  intro hc
  obtain ⟨t, u, hs, ht⟩ := List.eq_append_cons_of_mem hc
  rw [hs, splitAt?_append ht] at h
  cases h

end StyleTree.Text

namespace StyleTree.Css

open StyleTree.Text Item

/-- The names that an at-rule can be printed with: a letter or an underscore, perhaps after a
hyphen, and then letters, digits, underscores and hyphens. -/
def isAtName (name : List Char) : Bool :=
  match if name.head? = some '-' then name.tail else name with
  | c :: s => (c.isAlpha || c == '_') && s.all fun d => d.isAlphanum || d == '_' || d == '-'
  | [] => false

/-! ## Heads -/

/-- A head in reading order is its pieces up to the last that is not blank, and then blanks. -/
theorem exists_blanks_of_headPieces (head : List Piece) :
    ∃ blanks, head.reverse = headPieces head ++ blanks ∧ ∀ p ∈ blanks, p.isBlank = true := by
  refine ⟨(head.takeWhile Piece.isBlank).reverse, ?_, fun p hp => ?_⟩
  · unfold headPieces
    rw [← List.reverse_append, List.takeWhile_append_dropWhile]
  · exact List.mem_takeWhile_imp (List.mem_reverse.mp hp)

/-- What a list of inert pieces in reading order comes to as the head of an item. -/
theorem exists_headPieces {ps : List Piece} (hinert : ∀ p ∈ ps, Inert p) :
    ∃ blanks, ps = headPieces ps.reverse ++ blanks ∧ ∀ c ∈ textOf blanks, isBlank c = true := by
  obtain ⟨blanks, hps, hblanks⟩ := exists_blanks_of_headPieces ps.reverse
  rw [List.reverse_reverse] at hps
  refine ⟨blanks, hps, fun c hc => ?_⟩
  obtain ⟨p, hp, hcp⟩ := List.mem_flatMap.mp hc
  have hblank := hblanks p hp
  cases hinert p (hps ▸ List.mem_append_right _ hp) with
  | blank _ hs => exact isBlank_of_isSeparator (hs c hcp)
  | keyword | chunk => exact absurd hblank (by simp [Piece.isBlank])

theorem textOf_append (ps qs : List Piece) : textOf (ps ++ qs) = textOf ps ++ textOf qs :=
  List.flatMap_append

/-- Blanks at the end of a head do not matter to its trimmed text. -/
theorem trim_textOf_headPieces {ps : List Piece} (hinert : ∀ p ∈ ps, Inert p) :
    trim (textOf (headPieces ps.reverse)) = trim (textOf ps) := by
  obtain ⟨blanks, hps, hblank⟩ := exists_headPieces hinert
  nth_rewrite 2 [hps]
  rw [textOf_append, trim_append_blanks _ hblank]

/-- The item whose head has no at-keyword, from the trimmed text of the head. -/
def itemOf (text : List Char) (body : Option (List Spec)) : Except ParseCause (Option Spec) :=
  match body with
  | some children => .ok (some (.rule (String.ofList text) children))
  | none =>
    if text.isEmpty then .ok none
    else match splitAt? ':' text with
      | some (name, value) =>
        .ok (some (.declaration (String.ofList (trim name)) (String.ofList (trim value))))
      | none => .error (.missingColon (String.ofList text))

theorem ofHead_eq_itemOf {head : List Piece}
    (h : ∀ name s rest, headPieces head ≠ .keyword name s :: rest) (body : Option (List Spec)) :
    ofHead head body = itemOf (trim (textOf (headPieces head))) body := by
  unfold ofHead
  split
  · next hk => exact absurd hk (h _ _ _)
  · rfl

/-- Where a delimiter follows it, the text is read as the head of an item, and `item` is the item
that the head makes with a block and without one. -/
def Spells (u : List Char) (item : Option (List Spec) → Except ParseCause (Option Spec)) : Prop :=
  ∀ d t, IsDelimiter d → ∃ ps, pieces (u ++ d :: t) = ps ++ pieces (d :: t) ∧
    (∀ p ∈ ps, Inert p) ∧ (∀ p, ps.head? = some p → p.isBlank = false) ∧
    ∀ body, ofHead ps.reverse body = item body

/-- The same for one delimiter, whatever the pieces are. -/
def SpellsAt (d : Char) (u : List Char)
    (item : Option (List Spec) → Except ParseCause (Option Spec)) :
    Prop :=
  ∀ t, ∃ ps, pieces (u ++ d :: t) = ps ++ pieces (d :: t) ∧ (∀ p ∈ ps, p.isInert = true) ∧
    (∀ p, ps.head? = some p → p.isBlank = false) ∧ ∀ body, ofHead ps.reverse body = item body

theorem Spells.spellsAt {u : List Char}
    {item : Option (List Spec) → Except ParseCause (Option Spec)} (h : Spells u item) {d : Char}
    (hd : IsDelimiter d) : SpellsAt d u item := by
  intro t
  obtain ⟨ps, hps, hinert, hfirst, hof⟩ := h d t hd
  exact ⟨ps, hps, fun p hp => (hinert p hp).isInert, hfirst, hof⟩

theorem Inert.text_ne_nil {p : Piece} (hp : Inert p) : p.text ≠ [] := by
  cases hp with
  | blank hne _ => exact hne
  | @keyword name s hs =>
    rintro (rfl : s = [])
    exact absurd hs (by simp)
  | chunk hne => exact hne

/-- The first piece of a text begins as the text does. -/
theorem head?_of_textOf {p : Piece} {ps : List Piece} (hp : Inert p) {c : Char} {s : List Char}
    (h : textOf (p :: ps) = c :: s) : p.text.head? = some c := by
  obtain ⟨a, l, hl⟩ := List.exists_cons_of_ne_nil hp.text_ne_nil
  have hcons : p.text ++ textOf ps = c :: s := h
  rw [hl, List.cons_append] at hcons
  rw [hl, List.head?_cons, (List.cons.inj hcons).1]

/-- A text that starts with neither an at-sign nor a separator is a head without an at-keyword. -/
theorem spells_plain {u : List Char} (hu : Safe u) (hn : nests [] u = true)
    (hstart : ∀ c, u.head? = some c → isSeparator c = false ∧ c ≠ '@') :
    Spells u (itemOf (trim u)) := by
  intro d t hd
  obtain ⟨ps, hps, htext, hinert⟩ := exists_pieces_of_safe hd t hu hn
  -- the first piece is a chunk, because a blank or a keyword would show at the start of the text
  have hfirst : ∀ p, ps.head? = some p → ∃ s, p = .chunk s := by
    intro p hp
    obtain ⟨qs, rfl⟩ := List.head?_eq_some_iff.mp hp
    have hpi := hinert p (List.mem_cons_self ..)
    cases hu' : u with
    | nil =>
      rw [hu'] at htext
      exact absurd (List.append_eq_nil_iff.mp htext).1 hpi.text_ne_nil
    | cons c s =>
      have hhead := head?_of_textOf hpi (htext.trans hu')
      obtain ⟨hsep, hat⟩ := hstart c (by rw [hu']; rfl)
      cases hpi with
      | blank _ hs =>
        have hmem := hs c (List.mem_of_head? hhead)
        rw [hsep] at hmem
        exact absurd hmem (by simp)
      | keyword hs => exact absurd (Option.some.inj (hhead.symm.trans hs)) hat
      | chunk _ => exact ⟨_, rfl⟩
  refine ⟨ps, hps, hinert, ?_, ?_⟩
  · intro p hp
    obtain ⟨s, rfl⟩ := hfirst p hp
    rfl
  · intro body
    obtain ⟨blanks, hsplit, -⟩ := exists_headPieces hinert
    rw [ofHead_eq_itemOf, trim_textOf_headPieces hinert, htext]
    intro name s rest hhead
    rw [hhead] at hsplit
    obtain ⟨s', hs'⟩ := hfirst (.keyword name s) (by rw [hsplit]; rfl)
    exact absurd hs' (by simp)

/-! ## At-keywords -/

/-- Where a character that no name holds follows it, a text of name characters is one name. -/
theorem nameLength_append {name : List Char} (hname : ∀ c ∈ name, isNameChar c = true) {c : Char}
    (hc : isNameChar c = false) (hslash : c ≠ '\\') (t : List Char) :
    nameLength 0 (name ++ c :: t) = name.length := by
  induction name with
  | nil =>
    rw [List.nil_append, nameLength, if_neg (by simp [hc]), if_neg (by simp [hslash])]
    rfl
  | cons d name ih =>
    rw [List.cons_append, nameLength, if_pos (hname d (List.mem_cons_self ..)),
      ih fun x hx => hname x (List.mem_cons_of_mem _ hx), List.length_cons]

theorem exists_of_isAtName {name : List Char} (h : isAtName name = true) :
    ∃ hyphen c s, name = hyphen ++ c :: s ∧ (hyphen = [] ∨ hyphen = ['-']) ∧
      (c.isAlpha = true ∨ c = '_') ∧ ∀ d ∈ s, d.isAlphanum = true ∨ d = '_' ∨ d = '-' := by
  unfold isAtName at h
  split at h
  · next c s hname =>
    simp only [Bool.and_eq_true, Bool.or_eq_true, beq_iff_eq, List.all_eq_true, or_assoc] at h
    split at hname
    · next hhyphen =>
      obtain ⟨r, rfl⟩ := List.head?_eq_some_iff.mp hhyphen
      exact ⟨['-'], c, s, by rw [← hname]; rfl, Or.inr rfl, h.1, h.2⟩
    · exact ⟨[], c, s, hname, Or.inl rfl, h.1, h.2⟩
  · exact absurd h (by simp)

theorem isNameStart_of_letter {c : Char} (hc : c.isAlpha = true ∨ c = '_') :
    isNameStart c = true := by
  rcases hc with hc | rfl
  · simp [isNameStart, hc]
  · rfl

/-- A name of an at-rule is made of name characters other than the null character. -/
theorem isNameChar_of_isAtName {name : List Char} (h : isAtName name = true) :
    ∀ d ∈ name, isNameChar d = true ∧ d ≠ '\x00' := by
  obtain ⟨hyphen, c, s, rfl, hhyphen, hc, hs⟩ := exists_of_isAtName h
  intro d hd
  rw [List.mem_append, List.mem_cons] at hd
  rcases hd with hd | rfl | hd
  · rcases hhyphen with rfl | rfl
    · exact absurd hd (by simp)
    · obtain rfl := List.mem_singleton.mp hd
      decide
  · refine ⟨by simp [isNameChar, isNameStart_of_letter hc], ?_⟩
    rintro rfl
    exact absurd hc (by decide)
  · rcases hs d hd with hd | rfl | rfl
    · rw [Char.isAlphanum, Bool.or_eq_true] at hd
      refine ⟨?_, ?_⟩
      · rcases hd with hd | hd
        · simp [isNameChar, isNameStart, hd]
        · simp [isNameChar, hd]
      · rintro rfl
        exact absurd hd (by decide)
    · decide
    · decide

theorem startsName_of_isAtName {name : List Char} (h : isAtName name = true) (t : List Char) :
    startsName (name ++ t) = true := by
  obtain ⟨hyphen, c, s, rfl, hhyphen, hc, -⟩ := exists_of_isAtName h
  have hstart := isNameStart_of_letter hc
  rcases hhyphen with rfl | rfl
  · show startsName (c :: (s ++ t)) = true
    unfold startsName
    split
    · next he =>
      rw [(List.cons.inj he).1] at hstart
      exact absurd hstart (by decide)
    · next he =>
      rw [(List.cons.inj he).1] at hstart
      exact absurd hstart (by decide)
    · next he =>
      rw [← (List.cons.inj he).1]
      exact hstart
    · next he => exact absurd he (by simp)
  · show (isNameStart c || c == '-' || c == '\\') = true
    simp [hstart]

/-- An at-sign and a name are one piece, whatever comes after a character that ends the name. -/
theorem pieces_keyword {name : List Char} (hname : isAtName name = true) {c : Char}
    (hc : c = ' ' ∨ IsDelimiter c) (t : List Char) :
    pieces ('@' :: name ++ c :: t) = .keyword name ('@' :: name) :: pieces (c :: t) := by
  have hchars := isNameChar_of_isAtName hname
  have hlen : nameLength 0 (name ++ c :: t) = name.length := by
    apply nameLength_append fun d hd => (hchars d hd).1
    · rcases hc with rfl | rfl | rfl <;> rfl
    · rcases hc with rfl | rfl | rfl <;> decide
  have hdecode : decodeName name = name := by
    rw [decodeName_of_notMem fun hmem => absurd (hchars _ hmem).1 (by decide)]
    refine (List.map_congr_left fun d hd => ?_).trans (List.map_id name)
    rw [if_neg (hchars d hd).2]
    rfl
  have hread : Token.read '@' (name ++ c :: t) = (.atKeyword name, name.length) := by
    show (if startsName (name ++ c :: t) then
      (.atKeyword (decodeName ((name ++ c :: t).take (nameLength 0 (name ++ c :: t)))),
        nameLength 0 (name ++ c :: t)) else ((.plain, 0) : Token.Kind × Nat)) = _
    rw [if_pos (startsName_of_isAtName hname _), hlen, List.take_left, hdecode]
  rw [pieces, List.cons_append, tokens_cons, hread]
  dsimp only
  rw [List.take_left, List.drop_left]
  rfl

/-- An at-sign, a name and a text are a head with an at-keyword. -/
theorem spells_keyword {name u : List Char} (hname : isAtName name = true) (hu : Safe u)
    (hn : nests [] u = true) (hstart : ∀ c, u.head? = some c → c = ' ') :
    Spells ('@' :: name ++ u) fun body =>
      .ok (some (.atRule (String.ofList name) (String.ofList (trim u)) body)) := by
  intro d t hd
  obtain ⟨ps, hps, htext, hinert⟩ := exists_pieces_of_safe hd t hu hn
  have hall : ∀ p ∈ Piece.keyword name ('@' :: name) :: ps, Inert p := by
    intro p hp
    rcases List.mem_cons.mp hp with rfl | hp
    · exact Inert.keyword rfl
    · exact hinert p hp
  refine ⟨.keyword name ('@' :: name) :: ps, ?_, hall, ?_, ?_⟩
  · rw [List.append_assoc]
    show _ = Piece.keyword name ('@' :: name) :: (ps ++ pieces (d :: t))
    rw [← hps]
    cases u with
    | nil => exact pieces_keyword hname (Or.inr hd) t
    | cons c u => exact pieces_keyword hname (Or.inl (hstart c rfl)) (u ++ d :: t)
  · intro p hp
    cases hp
    rfl
  · intro body
    have hhead : headPieces (Piece.keyword name ('@' :: name) :: ps).reverse =
        .keyword name ('@' :: name) :: headPieces ps.reverse := by
      unfold headPieces
      rw [List.reverse_cons, List.dropWhile_append]
      split
      · next h =>
        rw [List.isEmpty_iff.mp h]
        rfl
      · rw [List.reverse_append]
        rfl
    unfold ofHead
    rw [hhead]
    dsimp only
    rw [trim_textOf_headPieces hinert, htext]

end StyleTree.Css
