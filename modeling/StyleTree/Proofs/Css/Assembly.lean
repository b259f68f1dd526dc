import StyleTree.Proofs.Css.Head

/-!
# Steps of the assembly

Items are assembled piece by piece.  What one piece can do is said here once, success and failure
apart, and everything about whole texts is derived from that.

* `Moves a p b`: the piece `p` takes the assembly from `a` to `b`.
* `Stops a p stop`: the piece `p` stops the assembly.
* `step_cases`: a step does one or the other.
* `exists_of_run_error`: pieces that cannot all be read are divided at the one that stops the
  assembly.
* `stops_of_close`, `exists_close`: at the end of the text only the last statement can fail, so that
  where an item may begin everything can be closed.
-/

namespace StyleTree.Css.Item

/-- A head makes an item of every block. -/
theorem exists_ofHead_block (head : List Piece) (children : List Spec) :
    ∃ spec, ofHead head (some children) = .ok (some spec) := by
  unfold ofHead
  split
  · exact ⟨_, rfl⟩
  · exact ⟨_, rfl⟩

namespace Assembly

variable {a b : Assembly} {p : Piece} {ps qs : List Piece} {stop : Stop}

/-- What a piece does to an assembly that it does not stop. -/
inductive Moves (a : Assembly) : Piece → Assembly → Prop
  /-- A blank before an item belongs to none. -/
  | skip {s : List Char} (hhead : a.head = []) : Moves a (.blank s) (a.skip s.length)
  | push {p : Piece} (hp : p.isInert = true) (hfirst : a.head = [] → p.isBlank = false) :
      Moves a p (a.push p)
  | statement {item : Option Spec} (hitem : ofHead a.head none = .ok item) :
      Moves a .semicolon ({ a with head := [], items := item.toList ++ a.items }.skip 1)
  | openBlock : Moves a .openBlock
      { a.skip 1 with head := [], items := [], levels := ⟨a.head, a.items⟩ :: a.levels }
  /-- The last statement of a block needs no semicolon. -/
  | closeBlock {level : Level} {levels : List Level} {item : Option Spec} {spec : Spec}
      (hlevels : a.levels = level :: levels) (hitem : ofHead a.head none = .ok item)
      (hspec : ofHead level.head (some (item.toList ++ a.items).reverse) = .ok (some spec)) :
      Moves a .closeBlock
        ({ a with head := [], items := spec :: level.items, levels := levels }.skip 1)

/-- What stops an assembly: a closing brace outside of all blocks, or a statement that is none. -/
inductive Stops (a : Assembly) : Piece → Stop → Prop
  | strayBrace (hlevels : a.levels = []) : Stops a .closeBlock ⟨.strayBrace, a.offset + 1⟩
  | statement {p : Piece} {cause : ParseCause} (hhead : ofHead a.head none = .error cause) :
      Stops a p ⟨cause, a.start⟩

theorem endStatement_of_ok {item : Option Spec} (h : ofHead a.head none = .ok item) :
    a.endStatement = .ok { a with head := [], items := item.toList ++ a.items } := by
  rw [endStatement, h]

theorem endStatement_of_error {cause : ParseCause} (h : ofHead a.head none = .error cause) :
    a.endStatement = .error ⟨cause, a.start⟩ := by
  rw [endStatement, h]

theorem exists_endBlock (a : Assembly) (level : Level) (levels : List Level) :
    ∃ spec, ofHead level.head (some a.items.reverse) = .ok (some spec) ∧
      a.endBlock level levels =
      .ok { a with head := [], items := spec :: level.items, levels := levels } := by
  obtain ⟨spec, hspec⟩ := exists_ofHead_block level.head a.items.reverse
  refine ⟨spec, hspec, ?_⟩
  rw [endBlock, hspec]
  rfl

/-- A piece moves the assembly on or stops it. -/
theorem step_cases (a : Assembly) (p : Piece) :
    (∃ b, a.step p = .ok b ∧ Moves a p b) ∨ ∃ stop, a.step p = .error stop ∧ Stops a p stop := by
  cases p with
  | blank s =>
    refine Or.inl ⟨_, rfl, ?_⟩
    split
    · next hempty => exact .skip (List.isEmpty_iff.mp hempty)
    · next hne => exact .push rfl fun hnil => absurd (List.isEmpty_iff.mpr hnil) hne
  | keyword name s => exact Or.inl ⟨_, rfl, .push rfl fun _ => rfl⟩
  | chunk s => exact Or.inl ⟨_, rfl, .push rfl fun _ => rfl⟩
  | semicolon =>
    rw [step]
    cases hitem : ofHead a.head none with
    | error cause =>
      rw [endStatement_of_error hitem]
      exact Or.inr ⟨_, rfl, .statement hitem⟩
    | ok item =>
      rw [endStatement_of_ok hitem]
      exact Or.inl ⟨_, rfl, .statement hitem⟩
  | openBlock => exact Or.inl ⟨_, rfl, .openBlock⟩
  | closeBlock =>
    rw [step]
    cases hlevels : a.levels with
    | nil => exact Or.inr ⟨_, rfl, .strayBrace hlevels⟩
    | cons level levels =>
      dsimp only
      cases hitem : ofHead a.head none with
      | error cause =>
        rw [endStatement_of_error hitem]
        exact Or.inr ⟨_, rfl, .statement hitem⟩
      | ok item =>
        obtain ⟨spec, hspec, hblock⟩ :=
          exists_endBlock { a with head := [], items := item.toList ++ a.items } level levels
        refine Or.inl ⟨_, ?_, .closeBlock hlevels hitem hspec⟩
        rw [endStatement_of_ok hitem]
        show (do return (← endBlock _ level levels).skip 1 : Except Stop Assembly) = _
        rw [hblock]
        rfl

theorem moves_of_step (h : a.step p = .ok b) : Moves a p b := by
  rcases step_cases a p with ⟨b', hb', hmoves⟩ | ⟨stop, hstop, -⟩
  · obtain rfl := Except.ok.inj (h.symm.trans hb')
    exact hmoves
  · cases h.symm.trans hstop

theorem stops_of_step (h : a.step p = .error stop) : Stops a p stop := by
  rcases step_cases a p with ⟨b, hb, -⟩ | ⟨stop', hstop', hstops⟩
  · cases h.symm.trans hb
  · obtain rfl := Except.error.inj (h.symm.trans hstop')
    exact hstops

/-! ## Runs -/

theorem run_cons_eq_ok (h : a.run (p :: ps) = .ok b) :
    ∃ c, a.step p = .ok c ∧ c.run ps = .ok b := by
  rw [run] at h
  cases hstep : a.step p with
  | error stop =>
    rw [hstep] at h
    cases h
  | ok c =>
    rw [hstep] at h
    exact ⟨c, rfl, h⟩

/-- A property that every step keeps, of the pieces read so far and the assembly, is kept by a
run. -/
theorem run_induction {P : List Piece → Assembly → Prop}
    (hstep : ∀ ps a p b, P ps a → a.step p = .ok b → P (ps ++ [p]) b) (ha : P qs a)
    (h : a.run ps = .ok b) : P (qs ++ ps) b := by
  induction ps generalizing a qs with
  | nil =>
    cases h
    rwa [List.append_nil]
  | cons p ps ih =>
    obtain ⟨c, hc, hrun⟩ := run_cons_eq_ok h
    have hnext := ih (hstep qs a p c ha hc) hrun
    rwa [List.append_assoc, List.singleton_append] at hnext

/-- A run that stops is a run up to a piece that stops it. -/
theorem exists_of_run_error (h : a.run ps = .error stop) :
    ∃ qs p rest b, ps = qs ++ p :: rest ∧ a.run qs = .ok b ∧ Stops b p stop := by
  induction ps generalizing a with
  | nil => cases h
  | cons p ps ih =>
    rw [run] at h
    cases hstep : a.step p with
    | error stop' =>
      rw [hstep] at h
      cases h
      exact ⟨[], p, ps, a, rfl, rfl, stops_of_step hstep⟩
    | ok c =>
      rw [hstep] at h
      obtain ⟨qs, q, rest, b, rfl, hrun, hstops⟩ := ih h
      refine ⟨p :: qs, q, rest, b, rfl, ?_, hstops⟩
      rw [run, hstep]
      exact hrun

theorem run_append (h : a.run ps = .ok b) (qs : List Piece) : a.run (ps ++ qs) = b.run qs := by
  induction ps generalizing a with
  | nil =>
    cases h
    rfl
  | cons p ps ih =>
    obtain ⟨c, hc, hrun⟩ := run_cons_eq_ok h
    rw [List.cons_append, run, hc]
    exact ih hrun

/-! ## The end of the text -/

/-- Closing one block leaves the rest to be closed from there. -/
theorem close_cons {item : Option Spec} (hitem : ofHead a.head none = .ok item) (level : Level)
    (levels : List Level) :
    ∃ spec, ofHead level.head (some (item.toList ++ a.items).reverse) = .ok (some spec) ∧
      a.close (level :: levels) =
        close { a with head := [], items := spec :: level.items, levels := levels } levels := by
  obtain ⟨spec, hspec, hblock⟩ :=
    exists_endBlock { a with head := [], items := item.toList ++ a.items } level levels
  refine ⟨spec, hspec, ?_⟩
  rw [close, endStatement_of_ok hitem]
  show (do (← endBlock _ level levels).close levels : Except Stop (List Spec)) = _
  rw [hblock]
  rfl

/-- At the end of the text only the last statement can fail. -/
theorem stops_of_close {levels : List Level} (h : a.close levels = .error stop) :
    ∃ cause, ofHead a.head none = .error cause ∧ stop = ⟨cause, a.start⟩ := by
  cases hitem : ofHead a.head none with
  | error cause =>
    refine ⟨cause, rfl, ?_⟩
    cases levels with
    | nil =>
      rw [close, endStatement_of_error hitem] at h
      exact (Except.error.inj h).symm
    | cons level levels =>
      rw [close, endStatement_of_error hitem] at h
      exact (Except.error.inj h).symm
  | ok item =>
    induction levels generalizing a item with
    | nil =>
      rw [close, endStatement_of_ok hitem] at h
      cases h
    | cons level levels ih =>
      obtain ⟨spec, -, hclose⟩ := close_cons hitem level levels
      rw [hclose] at h
      have hnone : ofHead [] none = .ok none := rfl
      obtain ⟨cause, hcause, -⟩ := ih h none hnone
      cases hcause

/-- Where an item may begin, the open blocks can be closed. -/
theorem exists_close (hhead : a.head = []) (levels : List Level) :
    ∃ specs, a.close levels = .ok specs := by
  cases hclose : a.close levels with
  | ok specs => exact ⟨specs, rfl⟩
  | error stop =>
    obtain ⟨cause, hcause, -⟩ := stops_of_close hclose
    rw [hhead] at hcause
    cases hcause

end Assembly

end StyleTree.Css.Item
