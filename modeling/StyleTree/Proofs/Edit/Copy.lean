import StyleTree.Proofs.RoundTrip

/-!
# Copies of plain nodes

A node is copied by reading back its own text, or bare if it has none.  For a plain branch the two
come to the same: the copy is described like the branch, less the rules and block at-rules below the
topmost node that nothing remains in.

* `Spec.tidied`: that description.
* `copies_iff_of_plain`: a plain branch is copied from it, and from nothing else.
* `Spec.Plain.tidied`: the copy is plain again.
-/

namespace StyleTree

open StyleTree.Tree Edit

namespace Spec

/-- The description with only what remains of it below the topmost node. -/
def tidied (s : Spec) : Spec :=
  { s with children := tidyAll s.children }

/-- What remains of a description is the description itself, tidied, or nothing; nothing remains
only if nothing remains below. -/
theorem tidy_cases (s : Spec) :
    s.tidy = some s.tidied ∨ s.tidy = none ∧ s.tidied = { s with children := [] } := by
  obtain ⟨kind, name, value, block, children⟩ := s
  rw [tidy]
  split
  · next h => exact Or.inr ⟨rfl, by rw [tidied, h.2]⟩
  · exact Or.inl rfl

theorem exists_of_mem_tidyAll {l : List Spec} {s : Spec} (h : s ∈ tidyAll l) :
    ∃ s' ∈ l, s = s'.tidied := by
  induction l with
  | nil => exact absurd h (by simp [tidyAll])
  | cons s' l ih =>
    rw [tidyAll, List.mem_append, Option.mem_toList] at h
    rcases h with h | h
    · rcases tidy_cases s' with hsome | ⟨hnone, -⟩
      · exact ⟨s', List.mem_cons_self .., Option.some.inj (h.symm.trans hsome)⟩
      · exact absurd (h.symm.trans hnone) (by simp)
    · obtain ⟨s'', hs'', he⟩ := ih h
      exact ⟨s'', List.mem_cons_of_mem _ hs'', he⟩

theorem Plain.tidied {s : Spec} (h : s.Plain) : s.tidied.Plain := by
  induction h with
  | rule htext hat _ ih =>
    refine .rule htext hat fun s hs => ?_
    obtain ⟨s', hs', rfl⟩ := exists_of_mem_tidyAll hs
    exact ih s' hs'
  | block hname hvalue _ ih =>
    refine .block hname hvalue fun s hs => ?_
    obtain ⟨s', hs', rfl⟩ := exists_of_mem_tidyAll hs
    exact ih s' hs'
  | statement hname hvalue => exact .statement hname hvalue
  | declaration hname hcolon hat hvalue => exact .declaration hname hcolon hat hvalue

theorem Plain.kind_ne_root {s : Spec} (h : s.Plain) : s.kind ≠ .root := by
  cases h <;> exact Kind.noConfusion

end Spec

/-- One description of the kind that is asked for is the answer. -/
theorem Css.single_singleton {kind : Kind} {spec : Spec} (hkind : spec.kind = kind)
    (hroot : kind ≠ .root) : Css.single kind [spec] = .ok spec := by
  cases kind with
  | root => exact absurd rfl hroot
  | rule | atRule | declaration =>
    show (if spec.kind = _ then _ else _) = _
    rw [if_pos hkind]

variable [Data] {t : Tree} {b : Branch} {spec : Spec}

theorem Tree.Shows.print_eq (ht : t.Linked) (hb : t.Shows b) (style : String) :
    t.print style b.id = .ok (b.print style) := by
  rw [Tree.print, hb.branch? ht]

/-- A plain branch is copied from its own description, tidied. -/
theorem copies_iff_of_plain (ht : t.Linked) (hb : t.Shows b) (hplain : b.toSpec.Plain) :
    Copies t b.id spec ↔ spec = b.toSpec.tidied := by
  have hcopies : Copies t b.id b.toSpec.tidied := by
    have hfeed : ∀ c ∈ lineFeed.toList, Text.isSeparator c = true := by
      simp [lineFeed, Text.isSeparator]
    have hprints := prints_branch hfeed b hplain
    refine ⟨b.node, b.print lineFeed, hb.get?, hb.print_eq ht lineFeed, ?_⟩
    have hkind : b.toSpec.kind = b.node.kind := by rw [b.toSpec_eq]; rfl
    rcases Spec.tidy_cases b.toSpec with hsome | ⟨hnone, hnil⟩
    · rw [hsome, Option.toList_some] at hprints
      refine Or.inr ⟨fun hempty => ?_, [b.toSpec.tidied], hprints.reads.parse_eq_ok, ?_⟩
      · exact absurd (hprints.empty.mp hempty) (by simp)
      · exact Css.single_singleton hkind (hkind ▸ hplain.kind_ne_root)
    · rw [hnone, Option.toList_none] at hprints
      refine Or.inl ⟨hprints.empty.mpr rfl, hnil.trans ?_⟩
      rw [b.toSpec_eq]
      rfl
  exact ⟨fun h => h.unique hcopies, fun h => h ▸ hcopies⟩

end StyleTree
