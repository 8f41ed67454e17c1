/-
# `AndroidFonts.Proofs.Font.Argument` — the words that name a font file

`Spells` is the grammar of these words, written down without a reader: a name, a weight and possibly a
style with colons between them.  A word is taken if and only if it is spelled so, and for the file it is
spelled for (`ofArgument_exact`).  A word is cut at every colon, so a name or a style that held one would
give a field too many; for this reason every file that can be named at all is read back from the word
that it is printed as.
-/
import AndroidFonts.Font.Argument
import AndroidFonts.Proofs.Text.Numeral
import AndroidFonts.Proofs.Tree.Spelling

namespace AndroidFonts

open Text

namespace FontFile

variable {text : String} {f : FontFile} {s name weight style : List Char} {italic : Bool}
  {field : Option (List Char)}

/-! ## The grammar -/

/-- The ends of a word that say of what style the font is; saying nothing means that it is upright. -/
inductive StyleText : List Char → Bool → Prop
  | absent : StyleText [] false
  | normal : StyleText (':' :: "normal".toList) false
  | italic : StyleText (':' :: "italic".toList) true

/-- Whether a font file can be named by a word. -/
structure Nameable (f : FontFile) : Prop where
  name_ne : f.name ≠ ""
  no_colon : ':' ∉ f.name.toList
  weight_pos : 1 ≤ f.weight
  weight_le : f.weight ≤ 1000

/-- The words for a font file. -/
inductive Spells : List Char → FontFile → Prop
  | mk {f : FontFile} {weight style : List Char} : f.Nameable → DecimalText weight f.weight →
      StyleText style f.italic → Spells (f.name.toList ++ ':' :: (weight ++ style)) f

/-! ## Fields -/

/-- A style field behind its colon, if there is one. -/
def styleEnd (field : Option (List Char)) : List Char := field.elim [] (':' :: ·)

theorem readItalic_eq_ok_iff : readItalic field = .ok italic ↔ StyleText (styleEnd field) italic := by
  constructor
  · intro h
    cases field with
    | none =>
      obtain rfl := Except.ok.inj h
      exact .absent
    | some style =>
      rw [readItalic] at h
      split at h
      · obtain rfl := Except.ok.inj h
        subst style
        exact .normal
      split at h
      · obtain rfl := Except.ok.inj h
        subst style
        exact .italic
      · nomatch h
  · intro h
    generalize hend : styleEnd field = ending at h
    cases field with
    | none =>
      cases h with
      | absent => rfl
      | normal => nomatch hend
      | italic => nomatch hend
    | some style =>
      cases h with
      | absent => nomatch hend
      | normal =>
        obtain rfl := (List.cons.inj hend).2
        rfl
      | italic =>
        obtain rfl := (List.cons.inj hend).2
        rfl

theorem exists_field (h : StyleText style italic) :
    ∃ field, style = styleEnd field ∧ ∀ s ∈ field, ':' ∉ s := by
  cases h with
  | absent => exact ⟨none, rfl, nofun⟩
  | normal => exact ⟨some "normal".toList, rfl, by decide⟩
  | italic => exact ⟨some "italic".toList, rfl, by decide⟩

theorem ofFields_eq_ok_iff : ofFields name weight field = .ok f ↔
    f.name = String.ofList name ∧ readNat16? weight = some f.weight ∧ isFontWeight f.weight = true ∧
      readItalic field = .ok f.italic := by
  unfold ofFields
  cases hweight : readNat16? weight with
  | none =>
    constructor
    · nofun
    · rintro ⟨-, h, -⟩
      nomatch h
  | some n =>
    by_cases hlegal : isFontWeight n = true
    · have hnot : (!isFontWeight n) = false := by rw [hlegal]; rfl
      simp only [hnot]
      cases hstyle : readItalic field with
      | error cause =>
        constructor
        · nofun
        · rintro ⟨-, -, -, h⟩
          nomatch h
      | ok italic =>
        obtain ⟨fileName, fileWeight, fileItalic⟩ := f
        constructor
        · intro h
          obtain ⟨rfl, rfl, rfl⟩ := FontFile.mk.inj (Except.ok.inj h)
          exact ⟨rfl, rfl, hlegal, rfl⟩
        · rintro ⟨hname, hn, -, hitalic⟩
          obtain rfl := Option.some.inj hn
          obtain rfl := Except.ok.inj hitalic
          exact congrArg (fun name => Except.ok (FontFile.mk name n italic)) hname.symm
    · have hnot : (!isFontWeight n) = true := by simpa using hlegal
      simp only [hnot]
      constructor
      · nofun
      · rintro ⟨-, h, hlegal', -⟩
        exact absurd (Option.some.inj h ▸ hlegal') hlegal

/-- A word has a name that is not empty, a weight, and possibly a style. -/
theorem ofArgument_eq_ok_iff_fields : ofArgument text = .ok f ↔
    ∃ name weight field, name ≠ [] ∧ splitOn ':' text.toList = name :: weight :: field.toList ∧
      ofFields name weight field = .ok f := by
  unfold ofArgument
  constructor
  · intro h
    split at h
    · nomatch h
    · rename_i name weight hne hpieces
      exact ⟨name, weight, none, hne, hpieces, h⟩
    · rename_i name weight style hne hpieces
      exact ⟨name, weight, some style, hne, hpieces, h⟩
    · nomatch h
    · nomatch h
  · rintro ⟨name, weight, field, hne, hpieces, h⟩
    obtain ⟨c, name, rfl⟩ := List.exists_cons_of_ne_nil hne
    rw [hpieces]
    cases field with
    | none => exact h
    | some style => exact h

theorem intercalate_fields : [':'].intercalate (name :: weight :: field.toList) =
    name ++ ':' :: (weight ++ styleEnd field) := by
  cases field with
  | none => simp [styleEnd]
  | some style => simp [styleEnd]

theorem colon_not_mem_of_decimalText {n : Nat} (h : DecimalText s n) : ':' ∉ s := by
  obtain ⟨hsign, -, hdigits⟩ := h
  intro hmem
  rcases List.mem_append.1 hmem with hmem | hmem
  · rcases hsign with rfl | rfl
    · nomatch hmem
    · exact absurd hmem (by decide)
  · have := hdigits ':' hmem
    nomatch this

/-- A word is taken if and only if it is spelled for the file that it is taken for. -/
theorem ofArgument_eq_ok_iff : ofArgument text = .ok f ↔ Spells text.toList f := by
  rw [ofArgument_eq_ok_iff_fields]
  constructor
  · rintro ⟨name, weight, field, hne, hpieces, hfields⟩
    obtain ⟨hname, hweight, hlegal, hstyle⟩ := ofFields_eq_ok_iff.1 hfields
    obtain ⟨htext, hcolon⟩ := (splitOn_eq_iff (List.cons_ne_nil _ _)).1 hpieces
    obtain ⟨hpos, hle⟩ := isFontWeight_iff.1 hlegal
    obtain rfl : f.name.toList = name := by rw [hname, String.toList_ofList]
    have hnameable : f.Nameable :=
      ⟨fun h => hne (by rw [h]; rfl), hcolon _ List.mem_cons_self, hpos, hle⟩
    rw [htext, intercalate_fields]
    exact .mk hnameable (readNat?_eq_some_iff.1 (readNat16?_eq_some_iff.1 hweight).1)
      (readItalic_eq_ok_iff.1 hstyle)
  · intro h
    generalize text.toList = word at h ⊢
    obtain ⟨hnameable, hweight, hstyle⟩ := h
    rename_i weight style
    obtain ⟨field, rfl, hfield⟩ := exists_field hstyle
    have hcolon : ∀ piece ∈ f.name.toList :: weight :: field.toList, ':' ∉ piece := by
      intro piece hpiece
      rcases List.mem_cons.1 hpiece with rfl | hpiece
      · exact hnameable.no_colon
      rcases List.mem_cons.1 hpiece with rfl | hpiece
      · exact colon_not_mem_of_decimalText hweight
      · exact hfield piece (Option.mem_toList.1 hpiece)
    have hne : f.name.toList ≠ [] := fun h => hnameable.name_ne (String.toList_eq_nil_iff.1 h)
    have hsize : f.weight < shortLimit := Nat.lt_of_le_of_lt hnameable.weight_le (by decide)
    refine ⟨f.name.toList, weight, field, hne, ?_, ofFields_eq_ok_iff.2 ⟨?_, ?_, ?_, ?_⟩⟩
    · exact (splitOn_eq_iff (List.cons_ne_nil _ _)).2 ⟨intercalate_fields.symm, hcolon⟩
    · rw [String.ofList_toList]
    · exact readNat16?_eq_some_iff.2 ⟨readNat?_eq_some_iff.2 hweight, hsize⟩
    · exact isFontWeight_iff.2 ⟨hnameable.weight_pos, hnameable.weight_le⟩
    · exact readItalic_eq_ok_iff.2 hstyle

/-- The word that a file is printed as is spelled for it. -/
theorem Nameable.spells (h : f.Nameable) : Spells f.toArgument.toList f := by
  have hweight : DecimalText (toString f.weight).toList f.weight := by
    rw [Nat.toString_eq_ofList_toDigits, String.toList_ofList]
    exact readNat?_eq_some_iff.1 (readNat?_toDigits f.weight)
  have hstyle : StyleText (if f.italic then ":italic" else "").toList f.italic := by
    cases f.italic with
    | false => exact .absent
    | true => exact .italic
  have htext : f.toArgument.toList = f.name.toList ++ ':' ::
      ((toString f.weight).toList ++ (if f.italic then ":italic" else "").toList) := by
    unfold toArgument
    simp
  rw [htext]
  exact .mk h hweight hstyle

/-- Words for font files are accepted by their grammar and for the file that they spell, and each file
that can be named is read back from its word. -/
theorem ofArgument_exact (text : String) (f : FontFile) :
    (ofArgument text = .ok f ↔ Spells text.toList f) ∧
      (f.Nameable → ofArgument f.toArgument = .ok f) :=
  ⟨ofArgument_eq_ok_iff, fun h => ofArgument_eq_ok_iff.2 h.spells⟩

/-- A weight may have a plus and zeros in front; the word that is printed has neither. -/
theorem ofArgument_exact_padded :
    let f : FontFile := ⟨"Lato Black", 900, true⟩
    f.Nameable ∧ Spells "Lato Black:+000900:italic".toList f ∧ f.toArgument = "Lato Black:900:italic" ∧
      ofArgument f.toArgument = .ok f := by
  intro f
  have hnameable : f.Nameable := ⟨by decide, by decide, by decide, by decide⟩
  have hread : ofArgument "Lato Black:+000900:italic" = .ok f := by decide +kernel
  exact ⟨hnameable, (ofArgument_exact _ f).1.1 hread, by decide +kernel,
    (ofArgument_exact "" f).2 hnameable⟩

end FontFile

end AndroidFonts
