/-
# `AndroidFonts.Proofs.Font.Name` — what resource names are made of

Whatever the display name, its resource name holds only small letters, digits and low lines
(`isResource_of_mem_normalizeName`).  So the file name of a descriptor is a name, and the call that
registers a family holds no quote and no brace beyond those of the family's own name.
-/
import AndroidFonts.Font.Family
import AndroidFonts.Proofs.Tree.Spelling

namespace AndroidFonts

/-- Whether a character may stand in a resource name. -/
def IsResourceChar (c : Char) : Prop := c.isLower ∨ c.isDigit ∨ c = '_'

namespace ResourceName

theorem isLower_toLower {c : Char} (h : c.isAlpha) : c.toLower.isLower := by
  delta Char.isAlpha Char.isUpper Char.isLower at h
  delta Char.isLower Char.toLower
  simp only [Bool.or_eq_true, Bool.and_eq_true, decide_eq_true_eq] at h ⊢
  split <;> grind [UInt32.toNat_add, Char.toNat_val]

theorem toLower_of_small {c : Char} (h : c.isLower ∨ c.isDigit) : c.toLower = c := by
  delta Char.isLower Char.isDigit at h
  delta Char.toLower
  simp only [Bool.and_eq_true, decide_eq_true_eq] at h ⊢
  split <;> grind

theorem isLower_or_isDigit_of_small? {c d : Char} (h : small? c = some d) : d.isLower ∨ d.isDigit := by
  unfold small? at h
  split at h
  · rename_i halnum
    obtain rfl := Option.some.inj h
    rw [Char.isAlphanum, Bool.or_eq_true] at halnum
    rcases halnum with halpha | hdigit
    · exact .inl (isLower_toLower halpha)
    · exact .inr (by rwa [toLower_of_small (.inr hdigit)])
  · split at h
    · obtain rfl := Option.some.inj h
      exact .inl (by decide)
    · split at h
      · obtain rfl := Option.some.inj h
        exact .inl (by decide)
      · nomatch h

theorem isResource_of_small? {c d : Char} (h : small? c = some d) : IsResourceChar d :=
  (isLower_or_isDigit_of_small? h).imp_right .inl

end ResourceName

open ResourceName in
theorem isResource_of_mem_normalizeName {name : String} {c : Char}
    (h : c ∈ (normalizeName name).toList) : IsResourceChar c := by
  have hintercalate : ∀ {words : List (List Char)}, c ∈ ['_'].intercalate words →
      c = '_' ∨ ∃ word ∈ words, c ∈ word := by
    intro words hc
    induction words with
    | nil => nomatch hc
    | cons word words ih =>
      by_cases hnil : words = []
      · subst hnil
        exact .inr ⟨word, List.mem_cons_self, by simpa using hc⟩
      · rw [List.intercalate_cons_of_ne_nil hnil] at hc
        rcases List.mem_append.1 hc with hc | hc
        · rcases List.mem_append.1 hc with hc | hc
          · exact .inr ⟨word, List.mem_cons_self, hc⟩
          · exact .inl (List.mem_singleton.1 hc)
        · rcases ih hc with hc | ⟨w, hw, hc⟩
          · exact .inl hc
          · exact .inr ⟨w, List.mem_cons_of_mem _ hw, hc⟩
  rw [normalizeName, String.toList_ofList] at h
  rcases hintercalate h with rfl | ⟨word, hword, hc⟩
  · exact .inr (.inr rfl)
  · obtain ⟨word, -, rfl⟩ := List.mem_map.1 hword
    obtain ⟨d, -, hd⟩ := List.mem_filterMap.1 hc
    exact isResource_of_small? hd

theorem IsResourceChar.ne {c d : Char} (h : IsResourceChar c)
    (hd : d.isLower = false ∧ d.isDigit = false ∧ d ≠ '_') : c ≠ d := by
  rintro rfl
  rcases h with h | h | h
  · rw [hd.1] at h
    nomatch h
  · rw [hd.2.1] at h
    nomatch h
  · exact hd.2.2 h

/-- The file name of a descriptor is a name. -/
theorem isName_descriptor (name : String) : IsName (normalizeName name ++ ".xml") := by
  have hlist : (normalizeName name ++ ".xml").toList = (normalizeName name).toList ++ ".xml".toList :=
    String.toList_append
  have hshort : ∀ s : String, s.toList.length < 4 → normalizeName name ++ ".xml" ≠ s := by
    rintro s hs rfl
    rw [hlist, List.length_append] at hs
    have : ".xml".toList.length = 4 := by decide
    omega
  refine ⟨⟨hshort _ (by decide), fun hslash => ?_⟩, hshort _ (by decide), hshort _ (by decide)⟩
  rw [hlist] at hslash
  rcases List.mem_append.1 hslash with h | h
  · exact (isResource_of_mem_normalizeName h).ne ⟨by decide, by decide, by decide⟩ rfl
  · exact absurd h (by decide)

end AndroidFonts
