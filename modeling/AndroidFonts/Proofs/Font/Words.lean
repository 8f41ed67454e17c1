/-
# `AndroidFonts.Proofs.Font.Words` — the words of a display name

Cutting a name into words loses nothing but the separators: the words in a row are the letters and
numbers of the name (`flatten_words`).  No word is empty (`nil_not_mem_words`): a word is begun only by
a character, also where one ends in front of the last of several capitals, since that rule asks for a
capital before it.  And what has no capitals is cut at the separators alone, so that words without
capitals, joined by low lines, are cut into the same words again (`words_intercalate`).

`normalizeName_clean` is what this says of resource names.  Of a name in ASCII every letter and digit is
kept, and the low lines stand between words.  Beyond ASCII a word may lose all its characters, and the
low line that joins it stays: `é x` makes `_x`.
-/
import AndroidFonts.Proofs.Font.Name
import AndroidFonts.Proofs.Text.Search
import Mathlib.Data.List.Basic

namespace AndroidFonts

namespace ResourceName

variable {c : Char} {s w : List Char} {ws : List (List Char)} {mode : CaseMode}

/-! ## Nothing is lost -/

theorem flatten_prepend (c : Char) (ws : List (List Char)) : (prepend c ws).flatten = c :: ws.flatten := by
  cases ws with
  | nil => rfl
  | cons w ws => rfl

theorem flatten_humps (mode : CaseMode) (s : List Char) : (humps mode s).flatten = s := by
  fun_induction humps mode s with
  | case1 => rfl
  | case2 => rfl
  | case3 mode c d rest _ ih =>
    show c :: (humps .undecided (d :: rest)).flatten = _
    rw [ih]
  | case4 mode c d rest _ _ ih =>
    show (prepend c (humps .undecided (d :: rest))).flatten = _
    rw [flatten_prepend, ih]
  | case5 mode c d rest _ _ ih => rw [flatten_prepend, ih]

theorem flatten_runs (s : List Char) : (runs s).flatten = s.filter Unicode.isAlphanumeric := by
  induction s with
  | nil => rfl
  | cons c s ih =>
    rw [runs]
    split
    case isTrue hc => rw [flatten_prepend, ih, List.filter_cons_of_pos hc]
    case isFalse hc => rw [List.flatten_cons, List.nil_append, ih, List.filter_cons_of_neg hc]

/-- The words of a name in a row are its letters and numbers. -/
theorem flatten_words (s : List Char) : (words s).flatten = s.filter Unicode.isAlphanumeric := by
  rw [words, List.flatten_eq_flatMap, List.flatMap_assoc]
  simp only [List.flatMap_id, flatten_humps]
  rw [← flatten_runs, List.flatten_eq_flatMap]
  rfl

/-! ## No word is empty -/

theorem nil_mem_prepend_iff : [] ∈ prepend c ws ↔ [] ∈ ws.tail := by
  cases ws with
  | nil => exact iff_of_false (by simp [prepend]) nofun
  | cons w ws => simp [prepend]

/-- Only what goes on behind a capital may begin with an empty word, and that capital is put into it. -/
theorem nil_not_mem_humps (mode : CaseMode) (s : List Char) :
    [] ∉ (humps mode s).tail ∧ (mode ≠ .upper → [] ∉ humps mode s) := by
  have hback : ∀ {ws : List (List Char)}, [] ∉ ws → [] ∉ ws.tail := fun h hmem =>
    h (List.mem_of_mem_tail hmem)
  fun_induction humps mode s with
  | case1 => exact ⟨nofun, fun _ => nofun⟩
  | case2 => exact ⟨nofun, fun _ => by simp⟩
  | case3 mode c d rest _ ih =>
    have hrest := ih.2 nofun
    exact ⟨hrest, fun _ => by simp [hrest]⟩
  | case4 mode c d rest _ hcapitals ih =>
    simp only [Bool.and_eq_true, decide_eq_true_eq] at hcapitals
    exact ⟨nil_mem_prepend_iff.not.2 ih.1, fun hmode => absurd hcapitals.1.1 hmode⟩
  | case5 mode c d rest _ _ ih =>
    have hrest : [] ∉ prepend c (humps (mode.next c) (d :: rest)) := nil_mem_prepend_iff.not.2 ih.1
    exact ⟨hback hrest, fun _ => hrest⟩

theorem nil_not_mem_words (s : List Char) : [] ∉ words s := by
  rw [words, List.mem_flatMap]
  rintro ⟨run, -, hnil⟩
  exact (nil_not_mem_humps .undecided run).2 nofun hnil

/-! ## Words that are cut again -/

/-- A run without capitals is one word. -/
theorem humps_of_no_capital (hne : s ≠ []) (h : ∀ c ∈ s, Unicode.isUppercase c = false) :
    humps mode s = [s] := by
  fun_induction humps mode s with
  | case1 => exact absurd rfl hne
  | case2 => rfl
  | case3 mode c d rest hcapital _ => simp [h d (by simp)] at hcapital
  | case4 mode c d rest _ hcapital _ => simp [h c (by simp)] at hcapital
  | case5 mode c d rest _ _ ih =>
    rw [ih (List.cons_ne_nil _ _) fun c hc => h c (List.mem_cons_of_mem _ hc)]
    rfl

theorem runs_of_alphanumeric (h : ∀ c ∈ w, Unicode.isAlphanumeric c = true) : runs w = [w] := by
  induction w with
  | nil => rfl
  | cons c w ih =>
    rw [runs, if_pos (h c List.mem_cons_self), ih fun c hc => h c (List.mem_cons_of_mem _ hc)]
    rfl

theorem runs_append_separator (h : ∀ c ∈ w, Unicode.isAlphanumeric c = true)
    (hc : Unicode.isAlphanumeric c = false) : runs (w ++ c :: s) = w :: runs s := by
  induction w with
  | nil =>
    show runs (c :: s) = _
    rw [runs, if_neg (by rw [hc]; nofun)]
  | cons d w ih =>
    rw [List.cons_append, runs, if_pos (h d List.mem_cons_self),
      ih fun c hc => h c (List.mem_cons_of_mem _ hc)]
    rfl

/-- Words without capitals are the words of what they make when they are joined. -/
theorem words_intercalate (hne : [] ∉ ws)
    (h : ∀ w ∈ ws, ∀ c ∈ w, Unicode.isAlphanumeric c = true ∧ Unicode.isUppercase c = false) :
    words (['_'].intercalate ws) = ws := by
  have hword : ∀ w ∈ ws, humps .undecided w = [w] := fun w hw =>
    humps_of_no_capital (fun hnil => hne (hnil ▸ hw)) fun c hc => (h w hw c hc).2
  induction ws with
  | nil => rfl
  | cons w ws ih =>
    have hrun : ∀ c ∈ w, Unicode.isAlphanumeric c = true := fun c hc =>
      (h w List.mem_cons_self c hc).1
    cases ws with
    | nil =>
      rw [List.intercalate_singleton, words, runs_of_alphanumeric hrun, List.flatMap_singleton,
        hword w List.mem_cons_self]
    | cons next ws =>
      have hrest := ih (fun hnil => hne (List.mem_cons_of_mem _ hnil))
        (fun w hw => h w (List.mem_cons_of_mem _ hw)) fun w hw => hword w (List.mem_cons_of_mem _ hw)
      rw [List.intercalate_cons_cons, List.append_assoc, List.singleton_append, words,
        runs_append_separator hrun (by decide), List.flatMap_cons, hword w List.mem_cons_self]
      exact congrArg (w :: ·) hrest

end ResourceName

/-! ## Words that are joined -/

namespace Text

variable {c : Char} {ws : List (List Char)}

theorem intercalate_ne_nil (hne : ws ≠ []) (h : [] ∉ ws) : [c].intercalate ws ≠ [] := by
  cases ws with
  | nil => exact absurd rfl hne
  | cons w ws =>
    have hw : w ≠ [] := fun hw => h (hw ▸ List.mem_cons_self)
    cases ws with
    | nil => rwa [List.intercalate_singleton]
    | cons next ws =>
      rw [List.intercalate_cons_cons, List.append_assoc]
      exact List.append_ne_nil_of_left_ne_nil hw _

/-- Between words that are joined by a character, it stands once, and nowhere else. -/
theorem intercalate_apart (hne : [] ∉ ws) (h : ∀ w ∈ ws, c ∉ w) :
    ([c].intercalate ws).head? ≠ some c ∧ ([c].intercalate ws).getLast? ≠ some c ∧
      ¬ [c, c] <:+: [c].intercalate ws := by
  induction ws with
  | nil => exact ⟨nofun, nofun, by simp [List.intercalate]⟩
  | cons w ws ih =>
    have hw : w ≠ [] := fun hw => hne (hw ▸ List.mem_cons_self)
    have hclear := h w List.mem_cons_self
    have hhead : ∀ r, (w ++ r).head? ≠ some c := by
      intro r hhead
      rw [List.head?_append_of_ne_nil _ hw] at hhead
      exact hclear (List.mem_of_head? hhead)
    cases ws with
    | nil =>
      rw [List.intercalate_singleton]
      refine ⟨List.append_nil w ▸ hhead [], fun hlast => hclear (List.mem_of_getLast? hlast), ?_⟩
      exact fun hin => hclear (hin.subset List.mem_cons_self)
    | cons next ws =>
      obtain ⟨hfirst, hlast, hdouble⟩ := ih (fun hnil => hne (List.mem_cons_of_mem _ hnil))
        fun w hw => h w (List.mem_cons_of_mem _ hw)
      have hrest : [c].intercalate (next :: ws) ≠ [] :=
        intercalate_ne_nil (List.cons_ne_nil _ _) fun hnil => hne (List.mem_cons_of_mem _ hnil)
      rw [List.intercalate_cons_cons, List.append_assoc]
      refine ⟨hhead _, ?_, fun hin => ?_⟩
      · rwa [List.getLast?_append_of_ne_nil _ (by simp), List.getLast?_append_of_ne_nil _ hrest]
      · have hin : [c, c] <:+: c :: [c].intercalate (next :: ws) :=
          infix_of_infix_append (fun a ha => Option.some.inj ha ▸ hclear) hin
        rcases List.infix_cons_iff.1 hin with hfront | hin
        · obtain ⟨r, hr⟩ := (List.prefix_cons_inj c).1 hfront
          exact hfirst (hr ▸ rfl)
        · exact hdouble hin

/-- Without the character that joins them, words are one behind the other. -/
theorem filter_intercalate (h : ∀ w ∈ ws, c ∉ w) :
    ([c].intercalate ws).filter (fun d => d ≠ c) = ws.flatten := by
  have hword : ∀ w ∈ ws, w.filter (fun d => d ≠ c) = w := fun w hw =>
    List.filter_eq_self.2 fun d hd => decide_eq_true fun hdc => h w hw (hdc ▸ hd)
  induction ws with
  | nil => rfl
  | cons w ws ih =>
    cases ws with
    | nil => simpa using hword w List.mem_cons_self
    | cons next ws =>
      rw [List.intercalate_cons_cons, List.append_assoc, List.filter_append,
        hword w List.mem_cons_self, List.singleton_append, List.filter_cons_of_neg (by simp)]
      exact congrArg (w ++ ·) (ih (fun w hw => h w (List.mem_cons_of_mem _ hw))
        fun w hw => hword w (List.mem_cons_of_mem _ hw))

end Text

/-! ## Resource names -/

namespace ResourceName

open Text

variable {c d : Char} {s w : List Char} {name : String}

/-- The words of a display name as they are written in the resource name. -/
def smallWords (name : String) : List (List Char) :=
  (words name.toList).map (·.filterMap small?)

theorem toList_normalizeName (name : String) :
    (normalizeName name).toList = ['_'].intercalate (smallWords name) :=
  String.toList_ofList

theorem isLower_or_isDigit_of_mem_smallWords (hw : w ∈ smallWords name) (hc : c ∈ w) :
    c.isLower ∨ c.isDigit := by
  obtain ⟨word, -, rfl⟩ := List.mem_map.1 hw
  obtain ⟨d, -, hd⟩ := List.mem_filterMap.1 hc
  exact isLower_or_isDigit_of_small? hd

theorem low_line_not_mem_smallWords (hw : w ∈ smallWords name) : '_' ∉ w := fun hmem =>
  absurd (isLower_or_isDigit_of_mem_smallWords hw hmem) (by decide)

/-- Without the low lines a resource name is the small forms of the letters and numbers of the display
name, as far as they have one. -/
theorem filter_normalizeName (name : String) :
    (normalizeName name).toList.filter (fun c => c ≠ '_') =
      (name.toList.filter Unicode.isAlphanumeric).filterMap small? := by
  rw [toList_normalizeName, filter_intercalate fun _ => low_line_not_mem_smallWords, smallWords,
    ← List.filterMap_flatten, flatten_words]

/-! ## Names in ASCII -/

theorem ascii_of_isAlphanum (h : c.isAlphanum) : c.toNat < 0x80 := by
  delta Char.isAlphanum Char.isAlpha Char.isUpper Char.isLower Char.isDigit at h
  simp only [Bool.or_eq_true, Bool.and_eq_true, decide_eq_true_eq, ge_iff_le, UInt32.le_iff_toNat_le,
    Char.toNat_val] at h
  change ((65 ≤ c.toNat ∧ c.toNat ≤ 90) ∨ (97 ≤ c.toNat ∧ c.toNat ≤ 122)) ∨
    (48 ≤ c.toNat ∧ c.toNat ≤ 57) at h
  omega

theorem isAlphanumeric_of_ascii (h : c.toNat < 0x80) : Unicode.isAlphanumeric c = c.isAlphanum := by
  unfold Unicode.isAlphanumeric Unicode.isAlphabetic Unicode.isNumber Unicode.isDecimal
  simp [h, Nat.not_le_of_lt h, Char.isAlphanum]

theorem isUppercase_of_ascii (h : c.toNat < 0x80) : Unicode.isUppercase c = c.isUpper :=
  if_pos h

theorem small?_of_isAlphanum (h : c.isAlphanum) : small? c = some c.toLower := if_pos h

/-- Of a name in ASCII every letter and digit is kept. -/
theorem filterMap_small?_of_ascii (hascii : ∀ c ∈ s, c.toNat < 0x80) :
    (s.filter Unicode.isAlphanumeric).filterMap small? = (s.filter Char.isAlphanum).map Char.toLower := by
  rw [List.filter_congr fun c hc => isAlphanumeric_of_ascii (hascii c hc), ← List.filterMap_eq_map]
  exact List.filterMap_congr fun c hc => small?_of_isAlphanum (List.mem_filter.1 hc).2

theorem nil_not_mem_smallWords (hascii : ∀ c ∈ name.toList, c.toNat < 0x80) : [] ∉ smallWords name := by
  intro hnil
  obtain ⟨word, hword, hempty⟩ := List.mem_map.1 hnil
  cases word with
  | nil => exact nil_not_mem_words _ hword
  | cons c word =>
    have hc : c ∈ name.toList.filter Unicode.isAlphanumeric :=
      flatten_words name.toList ▸ List.mem_flatten.2 ⟨_, hword, List.mem_cons_self⟩
    obtain ⟨hmem, hletter⟩ := List.mem_filter.1 hc
    rw [isAlphanumeric_of_ascii (hascii c hmem)] at hletter
    rw [List.filterMap_cons_some (small?_of_isAlphanum hletter)] at hempty
    nomatch hempty

/-! ## Names that are made of words already -/

theorem isAlphanum_of_small (h : c.isLower ∨ c.isDigit) : c.isAlphanum := by
  delta Char.isAlphanum Char.isAlpha
  rw [Bool.or_eq_true, Bool.or_eq_true]
  exact h.imp_left .inr

theorem isUpper_of_small (h : c.isLower ∨ c.isDigit) : c.isUpper = false := by
  delta Char.isLower Char.isDigit at h
  delta Char.isUpper
  simp only [Bool.and_eq_true, decide_eq_true_eq] at h
  grind

theorem small?_of_small (h : c.isLower ∨ c.isDigit) : small? c = some c := by
  rw [small?_of_isAlphanum (isAlphanum_of_small h), toLower_of_small h]

/-- The words of a resource name are the words it was made of. -/
theorem smallWords_normalizeName (hascii : ∀ c ∈ name.toList, c.toNat < 0x80) :
    smallWords (normalizeName name) = smallWords name := by
  have hwords : words (normalizeName name).toList = smallWords name := by
    rw [toList_normalizeName]
    refine words_intercalate (nil_not_mem_smallWords hascii) fun w hw c hc => ?_
    have hsmall := isLower_or_isDigit_of_mem_smallWords hw hc
    have hletter := isAlphanum_of_small hsmall
    have hlow := ascii_of_isAlphanum hletter
    rw [isAlphanumeric_of_ascii hlow, isUppercase_of_ascii hlow]
    exact ⟨hletter, isUpper_of_small hsmall⟩
  have hkept : ∀ w ∈ smallWords name, w.filterMap small? = w := fun w hw =>
    (List.filterMap_congr fun c hc =>
      small?_of_small (isLower_or_isDigit_of_mem_smallWords hw hc)).trans List.filterMap_some
  rw [smallWords, hwords]
  exact (List.map_congr_left hkept).trans (List.map_id' _)

end ResourceName

open ResourceName Text in
/-- A resource name holds small letters, digits and low lines.  That of a name in ASCII has low lines
between words only, one at a time; without them it is the letters of the name, written small, and its
digits, in order; and it is its own resource name. -/
theorem normalizeName_clean (name : String) :
    (∀ c ∈ (normalizeName name).toList, IsResourceChar c) ∧
    ((∀ c ∈ name.toList, c.toNat < 0x80) →
      (normalizeName name).toList.head? ≠ some '_' ∧
      (normalizeName name).toList.getLast? ≠ some '_' ∧
      ¬ ['_', '_'] <:+: (normalizeName name).toList ∧
      (normalizeName name).toList.filter (fun c => c ≠ '_') =
        (name.toList.filter Char.isAlphanum).map Char.toLower ∧
      normalizeName (normalizeName name) = normalizeName name) := by
  refine ⟨fun c => isResource_of_mem_normalizeName, fun hascii => ?_⟩
  obtain ⟨hhead, hlast, hdouble⟩ := intercalate_apart (nil_not_mem_smallWords hascii)
    fun _ => low_line_not_mem_smallWords
  rw [← toList_normalizeName] at hhead hlast hdouble
  refine ⟨hhead, hlast, hdouble, ?_, ?_⟩
  · rw [filter_normalizeName, filterMap_small?_of_ascii hascii]
  · rw [← String.toList_inj, toList_normalizeName, smallWords_normalizeName hascii,
      ← toList_normalizeName]

/-- A name with separators at the front and in a row, with capitals in a row, and with a digit in front
of a capital. -/
def humpedName : String := "__PTSans-XMLHttp  2Go!"

theorem normalizeName_clean_of_humps : normalizeName humpedName = "pt_sans_xml_http_2go" ∧
    (humpedName.toList.filter Char.isAlphanum).map Char.toLower = "ptsansxmlhttp2go".toList ∧
    normalizeName "pt_sans_xml_http_2go" = "pt_sans_xml_http_2go" := by
  have hascii : ∀ c ∈ humpedName.toList, c.toNat < 0x80 := by simp [humpedName]
  have hname : normalizeName humpedName = "pt_sans_xml_http_2go" := by decide +kernel
  obtain ⟨-, -, -, hkept, hagain⟩ := (normalizeName_clean humpedName).2 hascii
  rw [hname] at hkept hagain
  exact ⟨hname, hkept.symm, hagain⟩

end AndroidFonts
