import Mathlib.Data.List.Induction
import StyleTree.Proofs.Arena

/-!
# The handles that an arena has given out

A handle is a slot and a version of it.  The version is one when a slot is made, goes up by one when
the slot is given up and again when it is taken, and nothing else touches it.  So the version of a
handle tells how many handles the same slot had given out before: none for version one, one for
version three, and so on.  Two handles are never the same, however slots are taken and given up in
between, because no two handles of a slot have the same number of predecessors.

* `uses a i`: how often the slot `i` has been taken, read off its version.
* `Numbered given`: in a list of handles, the version of each one counts those of the same slot
  before it.
* `Numbered.nodup`, `Numbered.version_lt`: such a list has no handle twice, and a slot that occurs
  `n` times in it has versions below `2 * n`.
* `Issued a given`: the arena has given out the handles of the list, in this order, and no others.
* `issued_empty`, `Issued.insert`, `Issued.modify`, `Issued.retain`: what the operations do to that
  list.
-/

namespace StyleTree

/-! ## Numbered handles -/

/-- How many of the handles belong to a slot. -/
def givenFrom (i : Nat) (given : List Handle) : Nat :=
  given.countP fun k => k.index = i

theorem givenFrom_concat (i : Nat) (given : List Handle) (k : Handle) :
    givenFrom i (given ++ [k]) = givenFrom i given + if k.index = i then 1 else 0 := by
  simp [givenFrom, List.countP_append, List.countP_singleton]

/-- The version of every handle in a list is one more than twice the number of handles that its slot
has before it. -/
def Numbered (given : List Handle) : Prop :=
  ∀ before k after, given = before ++ k :: after → k.version = 2 * givenFrom k.index before + 1

namespace Numbered

variable {given : List Handle} {k : Handle}

theorem nil : Numbered [] :=
  fun _ _ _ h => absurd h (by simp)

theorem concat (h : Numbered given) (hk : k.version = 2 * givenFrom k.index given + 1) :
    Numbered (given ++ [k]) := by
  intro before l after heq
  rcases List.eq_nil_or_concat after with rfl | ⟨middle, z, rfl⟩
  · obtain ⟨rfl, hl⟩ := List.append_inj' heq rfl
    cases hl
    exact hk
  · have hsplit : given ++ [k] = (before ++ l :: middle) ++ [z] := by
      rw [heq, List.concat_eq_append, List.append_assoc, List.cons_append]
    exact h before l middle (List.append_inj' hsplit rfl).1

theorem of_concat (h : Numbered (given ++ [k])) :
    Numbered given ∧ k.version = 2 * givenFrom k.index given + 1 := by
  refine ⟨fun before l after heq => h before l (after ++ [k]) ?_, h given k [] rfl⟩
  rw [heq, List.append_assoc, List.cons_append]

/-- The versions of a slot are bounded by the number of its handles. -/
theorem version_lt (h : Numbered given) (hk : k ∈ given) :
    k.version < 2 * givenFrom k.index given := by
  induction given using List.reverseRecOn with
  | nil => exact absurd hk List.not_mem_nil
  | append_singleton given l ih =>
    obtain ⟨hgiven, hl⟩ := h.of_concat
    rw [givenFrom_concat]
    rcases List.mem_append.mp hk with hk | hk
    · have hlt := ih hgiven hk
      omega
    · obtain rfl := List.mem_singleton.mp hk
      rw [if_pos rfl]
      omega

/-- No handle occurs twice: its version would be below the number of the second occurrence. -/
theorem nodup (h : Numbered given) : given.Nodup := by
  induction given using List.reverseRecOn with
  | nil => exact List.nodup_nil
  | append_singleton given k ih =>
    obtain ⟨hgiven, hk⟩ := h.of_concat
    rw [← List.concat_eq_append]
    refine (ih hgiven).concat fun hmem => ?_
    have hlt := hgiven.version_lt hmem
    omega

end Numbered

namespace Arena

variable {α : Type} {a : Arena α} {given : List Handle} {h k : Handle} {x : α}

/-! ## How often a slot has been taken -/

/-- How often a slot has been taken.  A slot that is not there yet has not been taken. -/
def uses (a : Arena α) (i : Nat) : Nat :=
  a.slots[i]?.elim 0 fun slot => (slot.version + 1) / 2

theorem uses_insert (hs : a.Sound) (x : α) (i : Nat) :
    (a.insert x).uses i = a.uses i + if a.next.index = i then 1 else 0 := by
  unfold uses
  rcases insert_cases hs x with ⟨hnext, hins⟩ | ⟨j, rest, v, -, heven, hslot, hnext, hins⟩
  · rw [hnext, hins]
    by_cases hi : i = a.slots.size
    · subst hi
      simp
    · simp [Array.getElem?_push, hi, Ne.symm hi]
  · have hb := (Array.getElem?_eq_some_iff.mp hslot).1
    rw [hnext, hins]
    by_cases hj : j = i
    · subst hj
      rw [Array.getElem?_setIfInBounds_self, if_pos hb, hslot, if_pos rfl]
      simp only [Option.elim]
      omega
    · rw [Array.getElem?_setIfInBounds_ne hj, if_neg hj, Nat.add_zero]

/-- The next handle is numbered by the uses of its slot. -/
theorem version_next (hs : a.Sound) : a.next.version = 2 * a.uses a.next.index + 1 := by
  unfold next uses
  split
  · next i rest hv =>
    obtain ⟨v, heven, hslot⟩ := hs.vacant i (by rw [hv]; exact List.mem_cons_self ..)
    simp only [hslot, Option.elim]
    omega
  · simp

theorem uses_modify (a : Arena α) (h : Handle) (f : α → α) (i : Nat) :
    (a.modify h f).uses i = a.uses i := by
  unfold uses modify
  split
  · next x hx =>
    have hslot := get?_eq_some_iff.mp hx
    by_cases hi : h.index = i
    · subst hi
      rw [Array.getElem?_setIfInBounds_self, if_pos (Array.getElem?_eq_some_iff.mp hslot).1, hslot]
      rfl
    · rw [Array.getElem?_setIfInBounds_ne hi]
  · rfl

theorem uses_erase (hs : a.Sound) (h : Handle) (i : Nat) : (a.erase h).uses i = a.uses i := by
  unfold uses erase
  split
  · next x hx =>
    have hslot := get?_eq_some_iff.mp hx
    by_cases hi : h.index = i
    · subst hi
      have hodd := hs.odd _ _ _ hslot
      rw [Array.getElem?_setIfInBounds_self, if_pos (Array.getElem?_eq_some_iff.mp hslot).1, hslot]
      simp only [Option.elim]
      omega
    · rw [Array.getElem?_setIfInBounds_ne hi]
  · rfl

/-! ## The handles given out -/

/-- The arena has given out the handles of a list, in this order: each one has its value still or
has been freed, every value is at one of them, and they are as many for each slot as the slot was
taken. -/
structure Issued (a : Arena α) (given : List Handle) : Prop where
  sound : a.Sound
  mem_of_get? : ∀ k x, a.get? k = some x → k ∈ given
  freed : ∀ k ∈ given, a.get? k = none → a.Freed k
  uses : ∀ i, a.uses i = givenFrom i given
  numbered : Numbered given

theorem issued_empty : (empty : Arena α).Issued [] where
  sound := sound_empty
  mem_of_get? := fun k x hx => absurd hx (by simp)
  freed := fun _ hk => absurd hk List.not_mem_nil
  uses := by
    intro i
    cases i <;> simp [Arena.uses, empty, givenFrom]
  numbered := Numbered.nil

/-- A new value has a handle that was not given out before. -/
theorem Issued.insert (ha : a.Issued given) (x : α) : (a.insert x).Issued (given ++ [a.next]) where
  sound := ha.sound.insert x
  mem_of_get? := by
    intro k y hy
    rw [get?_insert ha.sound] at hy
    split at hy
    · next hk => exact List.mem_append_right _ (List.mem_singleton.mpr hk)
    · exact List.mem_append_left _ (ha.mem_of_get? k y hy)
  freed := by
    intro k hk hdead
    rw [get?_insert ha.sound] at hdead
    split at hdead
    · exact absurd hdead (by simp)
    · next hne =>
      have hgiven : k ∈ given :=
        (List.mem_append.mp hk).resolve_right fun h => hne (List.mem_singleton.mp h)
      exact (ha.freed k hgiven hdead).insert ha.sound x
  uses := by
    intro i
    rw [uses_insert ha.sound, ha.uses, givenFrom_concat]
  numbered := ha.numbered.concat (by rw [version_next ha.sound, ha.uses])

theorem Issued.modify (ha : a.Issued given) (h : Handle) (f : α → α) :
    (a.modify h f).Issued given where
  sound := ha.sound.modify h f
  mem_of_get? := by
    intro k y hy
    rw [get?_modify] at hy
    split at hy
    · next hk =>
      obtain ⟨x, hx, -⟩ := Option.map_eq_some_iff.mp hy
      exact hk ▸ ha.mem_of_get? h x hx
    · exact ha.mem_of_get? k y hy
  freed := by
    intro k hk hdead
    rw [get?_modify] at hdead
    split at hdead
    · next he =>
      subst he
      exact (ha.freed k hk (Option.map_eq_none_iff.mp hdead)).modify k f
    · exact (ha.freed k hk hdead).modify h f
  uses := fun i => (uses_modify a h f i).trans (ha.uses i)
  numbered := ha.numbered

theorem Issued.erase (ha : a.Issued given) (h : Handle) : (a.erase h).Issued given where
  sound := ha.sound.erase h
  mem_of_get? := by
    intro k y hy
    rw [get?_erase] at hy
    split at hy
    · exact absurd hy (by simp)
    · exact ha.mem_of_get? k y hy
  freed := by
    intro k hk hdead
    cases hx : a.get? k with
    | none => exact (ha.freed k hk hx).erase h
    | some x =>
      -- the value was there before, so it is the one that is given up
      rw [get?_erase] at hdead
      split at hdead
      · next he => exact he ▸ freed_erase_self ha.sound hx
      · exact absurd (hx.symm.trans hdead) (by simp)
  uses := fun i => (uses_erase ha.sound h i).trans (ha.uses i)
  numbered := ha.numbered

/-- Giving up values leaves the list of handles as it is. -/
theorem Issued.retain (ha : a.Issued given) (keep : Handle → Bool) : (a.retain keep).Issued given :=
  List.foldlRecOn (motive := (Issued · given)) _ _ ha fun _ hb h _ => hb.erase h

end Arena

end StyleTree
