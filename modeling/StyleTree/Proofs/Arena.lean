import Mathlib.Data.List.Nodup
import StyleTree.Arena

/-!
# What an arena holds

Every operation of an arena, read through `get?`.

The reading needs one thing of the arena: that the list of vacant slots can be trusted.  `Sound`
says so, and adds the parity of versions: odd in a taken slot, even in a vacant one.  With it

* `get?_insert`: a new value is at `a.next` and nothing else has moved;
* `get?_modify`, `get?_erase`, `get?_retain`: the other three operations, which need no trust;
* `size_retain`: how many values retaining gives up;
* `Freed`: a handle whose value has been given up.  No operation ever brings it back, which is what
  the version of a slot is for.
-/

namespace StyleTree.Arena

variable {α : Type} {a : Arena α} {h k : Handle} {x : α}

/-- The vacant slots are listed truthfully, and versions have the parity of their slots. -/
structure Sound (a : Arena α) : Prop where
  nodup : a.vacant.Nodup
  vacant : ∀ i ∈ a.vacant, ∃ v, v % 2 = 0 ∧ a.slots[i]? = some ⟨v, none⟩
  odd : ∀ (i v : Nat) (x : α), a.slots[i]? = some ⟨v, some x⟩ → v % 2 = 1

/-- A handle that was given out once and whose value has been given up. -/
def Freed (a : Arena α) (h : Handle) : Prop :=
  h.version % 2 = 1 ∧ ∃ slot, a.slots[h.index]? = some slot ∧ h.version < slot.version

/-! ## Slots and handles -/

theorem get?_eq_some_iff : a.get? h = some x ↔ a.slots[h.index]? = some ⟨h.version, some x⟩ := by
  unfold get?
  constructor
  · intro hx
    split at hx
    · next slot hslot =>
      split at hx
      · next hv => rw [hslot, ← hv, ← hx]
      · exact absurd hx (by simp)
    · exact absurd hx (by simp)
  · intro hx
    rw [hx]
    simp

/-- A taken slot has one handle only. -/
theorem eq_of_index_eq {y : α} (hh : a.get? h = some x) (hk : a.get? k = some y)
    (hi : h.index = k.index) : h = k := by
  rw [get?_eq_some_iff] at hh hk
  rw [hi, hk] at hh
  have hv : k.version = h.version := congrArg Slot.version (Option.some.inj hh)
  cases h
  cases k
  simp_all

theorem index_lt_of_get? (hh : a.get? h = some x) : h.index < a.slots.size := by
  rw [get?_eq_some_iff] at hh
  exact (Array.getElem?_eq_some_iff.mp hh).1

theorem Freed.get?_eq_none (hf : a.Freed h) : a.get? h = none := by
  obtain ⟨-, slot, hslot, hlt⟩ := hf
  unfold get?
  rw [hslot]
  exact if_neg (by omega)

/-! ## A new value -/

/-- Where a new value goes: into a new slot if no slot is vacant, and otherwise into the vacant slot
that is listed first. -/
theorem insert_cases (hs : a.Sound) (x : α) :
    (a.next = ⟨a.slots.size, 1⟩ ∧ a.insert x = ⟨a.slots.push ⟨1, some x⟩, []⟩) ∨
      ∃ i rest v, a.vacant = i :: rest ∧ v % 2 = 0 ∧ a.slots[i]? = some ⟨v, none⟩ ∧
        a.next = ⟨i, v + 1⟩ ∧ a.insert x = ⟨a.slots.setIfInBounds i ⟨v + 1, some x⟩, rest⟩ := by
  cases hv : a.vacant with
  | nil =>
    have hnext : a.next = ⟨a.slots.size, 1⟩ := by unfold next; rw [hv]
    refine Or.inl ⟨hnext, ?_⟩
    unfold insert
    rw [hv, hnext]
  | cons i rest =>
    obtain ⟨v, heven, hslot⟩ := hs.vacant i (by rw [hv]; exact List.mem_cons_self ..)
    have hnext : a.next = ⟨i, v + 1⟩ := by
      unfold next
      simp only [hv, hslot, Option.elim]
    refine Or.inr ⟨i, rest, v, rfl, heven, hslot, hnext, ?_⟩
    unfold insert
    rw [hv, hnext]

theorem get?_next (hs : a.Sound) : a.get? a.next = none := by
  unfold next
  split
  · next i rest hv =>
    obtain ⟨v, -, hslot⟩ := hs.vacant i (by rw [hv]; exact List.mem_cons_self ..)
    simp [get?, hslot]
  · simp [get?]

theorem get?_insert (hs : a.Sound) (x : α) (h : Handle) :
    (a.insert x).get? h = if h = a.next then some x else a.get? h := by
  obtain ⟨i, v⟩ := h
  unfold get?
  rcases insert_cases hs x with ⟨hnext, hins⟩ | ⟨j, rest, w, -, -, hslot, hnext, hins⟩
  · rw [hnext, hins]
    by_cases hi : i = a.slots.size
    · subst hi
      by_cases hv : v = 1 <;> simp [hv, eq_comm]
    · simp [Array.getElem?_push, hi]
  · rw [hnext, hins]
    obtain ⟨hj, hget⟩ := Array.getElem?_eq_some_iff.mp hslot
    by_cases hi : i = j
    · subst hi
      by_cases hv : v = w + 1 <;> simp [hv, hj, hget, eq_comm]
    · simp [hi, Ne.symm hi]

theorem sound_empty : (empty : Arena α).Sound where
  nodup := List.nodup_nil
  vacant := by simp [empty]
  odd := by
    intro i v x hx
    have hi : i < 1 := (Array.getElem?_eq_some_iff.mp hx).1
    obtain rfl : i = 0 := by omega
    simp [empty] at hx

theorem Sound.insert (hs : a.Sound) (x : α) : (a.insert x).Sound := by
  rcases insert_cases hs x with ⟨-, hins⟩ | ⟨j, rest, w, hv, heven, hslot, -, hins⟩
  · rw [hins]
    refine ⟨List.nodup_nil, by simp, fun i v y hy => ?_⟩
    rw [Array.getElem?_push] at hy
    split at hy
    · cases hy
      rfl
    · exact hs.odd i v y hy
  · have hnd := hs.nodup
    rw [hv, List.nodup_cons] at hnd
    rw [hins]
    refine ⟨hnd.2, fun i hi => ?_, fun i v y hy => ?_⟩
    · have hij : j ≠ i := fun he => hnd.1 (he ▸ hi)
      rw [Array.getElem?_setIfInBounds_ne hij]
      exact hs.vacant i (by rw [hv]; exact List.mem_cons_of_mem _ hi)
    · by_cases hij : j = i
      · subst hij
        rw [Array.getElem?_setIfInBounds_self] at hy
        split at hy
        · cases hy
          omega
        · exact absurd hy (by simp)
      · rw [Array.getElem?_setIfInBounds_ne hij] at hy
        exact hs.odd i v y hy

theorem Freed.insert (hf : a.Freed h) (hs : a.Sound) (x : α) : (a.insert x).Freed h := by
  obtain ⟨hodd, slot, hslot, hlt⟩ := hf
  obtain ⟨hb, -⟩ := Array.getElem?_eq_some_iff.mp hslot
  refine ⟨hodd, ?_⟩
  rcases insert_cases hs x with ⟨-, hins⟩ | ⟨j, rest, w, -, -, hj, -, hins⟩
  · refine ⟨slot, ?_, hlt⟩
    rw [hins, Array.getElem?_push, if_neg (Nat.ne_of_lt hb), hslot]
  · rw [hins]
    by_cases hij : j = h.index
    · -- the slot of the handle is taken again, in a later version
      subst hij
      rw [hj] at hslot
      cases hslot
      refine ⟨⟨w + 1, some x⟩, ?_, Nat.lt_succ_of_lt hlt⟩
      rw [Array.getElem?_setIfInBounds_self, if_pos hb]
    · refine ⟨slot, ?_, hlt⟩
      rw [Array.getElem?_setIfInBounds_ne hij, hslot]

/-- A new value frees nothing. -/
theorem Freed.of_insert (hs : a.Sound) (hf : (a.insert x).Freed h) : a.Freed h := by
  obtain ⟨hodd, slot, hslot, hlt⟩ := hf
  rcases insert_cases hs x with ⟨-, hins⟩ | ⟨j, rest, w, -, heven, hj, -, hins⟩
  · rw [hins, Array.getElem?_push] at hslot
    split at hslot
    · cases hslot
      simp only at hlt
      omega
    · exact ⟨hodd, slot, hslot, hlt⟩
  · rw [hins] at hslot
    by_cases hij : j = h.index
    · -- the version of the handle is odd, so it was passed before the slot was taken again
      subst hij
      rw [Array.getElem?_setIfInBounds_self, if_pos (Array.getElem?_eq_some_iff.mp hj).1] at hslot
      cases hslot
      simp only at hlt
      exact ⟨hodd, ⟨w, none⟩, hj, by simp only; omega⟩
    · rw [Array.getElem?_setIfInBounds_ne hij] at hslot
      exact ⟨hodd, slot, hslot, hlt⟩

/-! ## A value changed -/

theorem get?_modify (a : Arena α) (h : Handle) (f : α → α) (k : Handle) :
    (a.modify h f).get? k = if k = h then (a.get? h).map f else a.get? k := by
  unfold modify
  cases hx : a.get? h with
  | none =>
    by_cases hk : k = h
    · rw [hk, if_pos rfl]
      exact hx
    · rw [if_neg hk]
  | some x =>
    obtain ⟨hb, hget⟩ := Array.getElem?_eq_some_iff.mp (get?_eq_some_iff.mp hx)
    obtain ⟨i, v⟩ := k
    obtain ⟨j, w⟩ := h
    simp only at hb hget
    by_cases hi : i = j
    · subst hi
      by_cases hv : v = w <;> simp [get?, hb, hget, hv, eq_comm]
    · simp [get?, hi, Ne.symm hi]

/-- A change that leaves the value as it is leaves the arena as it is. -/
theorem modify_of_fixed {f : α → α} (hx : a.get? h = some x) (hf : f x = x) : a.modify h f = a := by
  have hslot := get?_eq_some_iff.mp hx
  have hsame : a.slots.setIfInBounds h.index ⟨h.version, some x⟩ = a.slots := by
    refine Array.ext_getElem? fun i => ?_
    rw [Array.getElem?_setIfInBounds]
    split
    · next hi => rw [← hi, hslot, if_pos (Array.getElem?_eq_some_iff.mp hslot).1]
    · rfl
  unfold modify
  rw [hx]
  simp only [hf, hsame]

theorem Sound.modify (hs : a.Sound) (h : Handle) (f : α → α) : (a.modify h f).Sound := by
  unfold Arena.modify
  split
  · next x hx =>
    rw [get?_eq_some_iff] at hx
    refine ⟨hs.nodup, fun i hi => ?_, fun i v y hy => ?_⟩
    · obtain ⟨v, heven, hslot⟩ := hs.vacant i hi
      have hij : h.index ≠ i := by
        rintro rfl
        rw [hx] at hslot
        exact absurd hslot (by simp)
      rw [Array.getElem?_setIfInBounds_ne hij]
      exact ⟨v, heven, hslot⟩
    · by_cases hij : h.index = i
      · subst hij
        rw [Array.getElem?_setIfInBounds_self] at hy
        split at hy
        · cases hy
          exact hs.odd _ _ _ hx
        · exact absurd hy (by simp)
      · rw [Array.getElem?_setIfInBounds_ne hij] at hy
        exact hs.odd i v y hy
  · exact hs

theorem Freed.modify (hf : a.Freed h) (k : Handle) (f : α → α) : (a.modify k f).Freed h := by
  unfold Arena.modify
  split
  · next x hx =>
    rw [get?_eq_some_iff] at hx
    obtain ⟨hodd, slot, hslot, hlt⟩ := hf
    by_cases hi : k.index = h.index
    · rw [hi, hslot] at hx
      cases hx
      refine ⟨hodd, ⟨k.version, some (f x)⟩, ?_, hlt⟩
      rw [hi, Array.getElem?_setIfInBounds_self,
        if_pos (Array.getElem?_eq_some_iff.mp hslot).1]
    · refine ⟨hodd, slot, ?_, hlt⟩
      rw [Array.getElem?_setIfInBounds_ne hi, hslot]
  · exact hf

/-- A change frees nothing. -/
theorem Freed.of_modify {f : α → α} (hf : (a.modify k f).Freed h) : a.Freed h := by
  unfold Arena.modify at hf
  split at hf
  · next x hx =>
    obtain ⟨hodd, slot, hslot, hlt⟩ := hf
    have hk := get?_eq_some_iff.mp hx
    by_cases hi : k.index = h.index
    · rw [hi, Array.getElem?_setIfInBounds_self, ← hi,
        if_pos (Array.getElem?_eq_some_iff.mp hk).1] at hslot
      cases hslot
      exact ⟨hodd, ⟨k.version, some x⟩, hi ▸ hk, hlt⟩
    · rw [Array.getElem?_setIfInBounds_ne hi] at hslot
      exact ⟨hodd, slot, hslot, hlt⟩
  · exact hf

/-! ## Values given up -/

theorem get?_erase (a : Arena α) (h k : Handle) :
    (a.erase h).get? k = if k = h then none else a.get? k := by
  unfold erase
  cases hx : a.get? h with
  | none =>
    by_cases hk : k = h
    · rw [hk, if_pos rfl]
      exact hx
    · rw [if_neg hk]
  | some x =>
    obtain ⟨hb, hget⟩ := Array.getElem?_eq_some_iff.mp (get?_eq_some_iff.mp hx)
    obtain ⟨i, v⟩ := k
    obtain ⟨j, w⟩ := h
    simp only at hb hget
    by_cases hi : i = j
    · subst hi
      by_cases hv : v = w
      · simp [get?, hb, hv]
      · simp [get?, hb, hget, hv, Ne.symm hv]
    · simp [get?, hi, Ne.symm hi]

theorem Sound.erase (hs : a.Sound) (h : Handle) : (a.erase h).Sound := by
  unfold Arena.erase
  split
  · next x hx =>
    rw [get?_eq_some_iff] at hx
    have hb := (Array.getElem?_eq_some_iff.mp hx).1
    have hnew : h.index ∉ a.vacant := by
      intro hmem
      obtain ⟨v, -, hslot⟩ := hs.vacant _ hmem
      rw [hx] at hslot
      exact absurd hslot (by simp)
    refine ⟨List.nodup_cons.mpr ⟨hnew, hs.nodup⟩, fun i hi => ?_, fun i v y hy => ?_⟩
    · rcases List.mem_cons.mp hi with rfl | hi
      · have hodd := hs.odd _ _ _ hx
        refine ⟨h.version + 1, by omega, ?_⟩
        rw [Array.getElem?_setIfInBounds_self, if_pos hb]
      · have hij : h.index ≠ i := fun he => hnew (he ▸ hi)
        rw [Array.getElem?_setIfInBounds_ne hij]
        exact hs.vacant i hi
    · by_cases hij : h.index = i
      · subst hij
        rw [Array.getElem?_setIfInBounds_self, if_pos hb] at hy
        exact absurd hy (by simp)
      · rw [Array.getElem?_setIfInBounds_ne hij] at hy
        exact hs.odd i v y hy
  · exact hs

theorem Freed.erase (hf : a.Freed h) (k : Handle) : (a.erase k).Freed h := by
  unfold Arena.erase
  split
  · next x hx =>
    rw [get?_eq_some_iff] at hx
    obtain ⟨hodd, slot, hslot, hlt⟩ := hf
    by_cases hi : k.index = h.index
    · rw [hi, hslot] at hx
      cases hx
      refine ⟨hodd, ⟨k.version + 1, none⟩, ?_, Nat.lt_succ_of_lt hlt⟩
      rw [hi, Array.getElem?_setIfInBounds_self,
        if_pos (Array.getElem?_eq_some_iff.mp hslot).1]
    · refine ⟨hodd, slot, ?_, hlt⟩
      rw [Array.getElem?_setIfInBounds_ne hi, hslot]
  · exact hf

/-- A handle whose value is given up is freed. -/
theorem freed_erase_self (hs : a.Sound) (hx : a.get? h = some x) : (a.erase h).Freed h := by
  have hslot := get?_eq_some_iff.mp hx
  refine ⟨hs.odd _ _ _ hslot, ⟨h.version + 1, none⟩, ?_, Nat.lt_succ_self _⟩
  unfold Arena.erase
  rw [hx]
  show (a.slots.setIfInBounds h.index _)[h.index]? = _
  rw [Array.getElem?_setIfInBounds_self, if_pos (Array.getElem?_eq_some_iff.mp hslot).1]

/-! ## Listing and retaining -/

theorem handleAt?_eq_some_iff {i : Nat} :
    a.handleAt? i = some h ↔ h.index = i ∧ ∃ x, a.get? h = some x := by
  simp only [get?_eq_some_iff]
  unfold handleAt?
  constructor
  · intro hh
    split at hh
    · next v x hslot =>
      cases hh
      exact ⟨rfl, x, hslot⟩
    · exact absurd hh (by simp)
  · rintro ⟨rfl, x, hslot⟩
    rw [hslot]

theorem mem_handles_iff : h ∈ a.handles ↔ ∃ x, a.get? h = some x := by
  unfold handles
  simp only [List.mem_filterMap, List.mem_range, handleAt?_eq_some_iff]
  constructor
  · rintro ⟨i, -, -, hx⟩
    exact hx
  · rintro ⟨x, hx⟩
    exact ⟨h.index, index_lt_of_get? hx, rfl, x, hx⟩

/-- No handle is listed twice, because every slot has one handle at most. -/
theorem nodup_handles (a : Arena α) : a.handles.Nodup := by
  refine List.nodup_range.filterMap fun i j k hi hj => ?_
  obtain ⟨rfl, -⟩ := handleAt?_eq_some_iff.mp hi
  exact (handleAt?_eq_some_iff.mp hj).1

theorem get?_foldl_erase (l : List Handle) (a : Arena α) (h : Handle) :
    (l.foldl erase a).get? h = if h ∈ l then none else a.get? h := by
  induction l generalizing a with
  | nil => simp
  | cons k l ih =>
    rw [List.foldl_cons, ih, get?_erase]
    by_cases hl : h ∈ l <;> by_cases hk : h = k <;> simp [hl, hk]

theorem get?_retain (a : Arena α) (keep : Handle → Bool) (h : Handle) :
    (a.retain keep).get? h = if keep h then a.get? h else none := by
  unfold retain
  rw [get?_foldl_erase]
  cases hk : keep h with
  | true => simp [List.mem_filter, hk]
  | false =>
    cases hx : a.get? h with
    | none => simp
    | some x =>
      have hmem : h ∈ a.handles := mem_handles_iff.mpr ⟨x, hx⟩
      simp [List.mem_filter, hk, hmem]

/-- Retaining takes away as many values as have handles that do not pass the test. -/
theorem size_retain (a : Arena α) (keep : Handle → Bool) :
    a.size = (a.retain keep).size + (a.handles.filter fun h => !keep h).length := by
  have hkept : (a.retain keep).handles.Perm (a.handles.filter keep) := by
    refine (List.perm_ext_iff_of_nodup (nodup_handles _) ((nodup_handles a).filter keep)).mpr ?_
    intro h
    rw [mem_handles_iff, List.mem_filter, mem_handles_iff, get?_retain]
    cases keep h <;> simp
  unfold size
  rw [hkept.length_eq, List.length_eq_length_filter_add keep]

theorem Sound.foldl_erase (hs : a.Sound) (l : List Handle) : (l.foldl Arena.erase a).Sound := by
  induction l generalizing a with
  | nil => exact hs
  | cons k l ih => exact ih (hs.erase k)

theorem Sound.retain (hs : a.Sound) (keep : Handle → Bool) : (a.retain keep).Sound :=
  hs.foldl_erase _

theorem Freed.foldl_erase (hf : a.Freed h) (l : List Handle) :
    (l.foldl Arena.erase a).Freed h := by
  induction l generalizing a with
  | nil => exact hf
  | cons k l ih => exact ih (hf.erase k)

theorem Freed.retain (hf : a.Freed h) (keep : Handle → Bool) : (a.retain keep).Freed h :=
  hf.foldl_erase _

theorem freed_foldl_erase (hs : a.Sound) (hx : a.get? h = some x) {l : List Handle} (hl : h ∈ l) :
    (l.foldl erase a).Freed h := by
  induction l generalizing a x with
  | nil => exact absurd hl (List.not_mem_nil)
  | cons k l ih =>
    rw [List.foldl_cons]
    by_cases hk : h = k
    · subst hk
      exact (freed_erase_self hs hx).foldl_erase l
    · have hmem : h ∈ l := (List.mem_cons.mp hl).resolve_left hk
      exact ih (x := x) (hs.erase k) (by rw [get?_erase, if_neg hk, hx]) hmem

/-- A handle that does not pass the test is freed. -/
theorem freed_retain (hs : a.Sound) (hx : a.get? h = some x) {keep : Handle → Bool}
    (hk : keep h = false) : (a.retain keep).Freed h :=
  freed_foldl_erase hs hx (List.mem_filter.mpr ⟨mem_handles_iff.mpr ⟨x, hx⟩, by rw [hk]; rfl⟩)

end StyleTree.Arena
