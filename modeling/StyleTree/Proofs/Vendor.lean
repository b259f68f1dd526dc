import Mathlib.Data.List.TakeDrop
import Mathlib.Data.List.TakeWhile
import StyleTree.Vendor

/-!
# Which vendor a name carries

`vendorOfName` scans a name for the word between two hyphens at its start.  Because a hyphen is no
word character, there is at most one such word, and the scan finds it: this is
`vendorOfName_eq_some_iff`, which says what the vendor is without saying how it is looked for.
-/

namespace StyleTree

open StyleTree.Text

theorem vendorIn_eq_some_iff {s word : List Char} :
    vendorIn s = some word ↔
      word ≠ [] ∧ (∀ c ∈ word, isWordChar c = true) ∧ ∃ rest, s = '-' :: word ++ '-' :: rest := by
  constructor
  · intro h
    unfold vendorIn at h
    split at h
    · next rest =>
      rw [List.span_eq_takeWhile_dropWhile] at h
      split at h
      · next c w tail hspan =>
        obtain ⟨htake, hdrop⟩ := Prod.mk.inj hspan
        have hcut := List.takeWhile_append_dropWhile (p := isWordChar) (l := rest)
        rw [htake, hdrop] at hcut
        cases h
        refine ⟨by simp, fun d hd => ?_, tail, by rw [← hcut]; rfl⟩
        rw [← htake] at hd
        exact List.mem_takeWhile_imp hd
      · exact absurd h (by simp)
    · exact absurd h (by simp)
  · rintro ⟨hne, hword, rest, rfl⟩
    obtain ⟨c, w, rfl⟩ := List.exists_cons_of_ne_nil hne
    have hstop : ('-' :: rest).takeWhile isWordChar = [] := by
      rw [List.takeWhile_cons_of_neg (by rw [isWordChar_hyphen]; simp)]
    have hgo : ('-' :: rest).dropWhile isWordChar = '-' :: rest := by
      rw [List.dropWhile_cons_of_neg (by rw [isWordChar_hyphen]; simp)]
    rw [List.cons_append, vendorIn, List.span_eq_takeWhile_dropWhile,
      List.takeWhile_append_of_pos hword, List.dropWhile_append_of_pos hword, hstop, hgo,
      List.append_nil]
    rfl

/-- A name carries a vendor exactly if it starts with a hyphen, the vendor, and another hyphen, and
the vendor is a word. -/
theorem vendorOfName_eq_some_iff {name vendor : String} :
    vendorOfName name = some vendor ↔
      vendor ≠ "" ∧ (∀ c ∈ vendor.toList, isWordChar c = true) ∧
        ∃ rest, name = "-" ++ vendor ++ "-" ++ rest := by
  unfold vendorOfName
  rw [Option.map_eq_some_iff]
  constructor
  · rintro ⟨word, hword, rfl⟩
    obtain ⟨hne, hall, rest, hs⟩ := vendorIn_eq_some_iff.mp hword
    refine ⟨?_, ?_, String.ofList rest, ?_⟩
    · intro he
      have hnil := congrArg String.toList he
      rw [String.toList_ofList] at hnil
      exact hne hnil
    · rw [String.toList_ofList]
      exact hall
    · rw [← String.toList_inj, hs]
      simp [String.toList_append]
  · rintro ⟨hne, hall, rest, rfl⟩
    refine ⟨vendor.toList, vendorIn_eq_some_iff.mpr ⟨?_, hall, rest.toList, ?_⟩,
      String.ofList_toList⟩
    · intro he
      exact hne (by rw [← String.toList_inj, he]; rfl)
    · simp [String.toList_append]

end StyleTree
