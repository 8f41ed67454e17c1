/-
# `AndroidFonts.Proofs.Text.Runs` — runs of characters of one kind

A run of characters of one kind ends where the first character of another kind stands, so a text that
begins with such a run is cut there in one way only (`run_append_inj`), and so is one that ends with it
(`append_run_inj`).  White space is one kind and what is no white space the other; no character of a
word is white space.
-/
import AndroidFonts.Pattern.Basic
import Mathlib.Data.List.Basic

namespace AndroidFonts

namespace Unicode

/-- A table as a list, which can be evaluated. -/
theorem inRanges_eq_any (table : Array (Nat × Nat)) (n : Nat) :
    inRanges table n = table.toList.any fun r => r.1 ≤ n && n ≤ r.2 := by
  unfold inRanges
  rw [← Array.any_toList]

/-- White space, found in a list. -/
def isListedBlank (c : Char) : Bool :=
  blankRanges.toList.any fun r => r.1 ≤ c.toNat && c.toNat ≤ r.2

theorem isBlank_eq_isListedBlank (c : Char) : isBlank c = isListedBlank c := inRanges_eq_any ..

theorem isBlank_feed : isBlank '\n' = true := (isBlank_eq_isListedBlank _).trans (by decide)

end Unicode

namespace Text

variable {a b s t w : List Char} {c : Char}

/-- The run that a text begins with is what is taken off its front. -/
theorem takeWhile_run {kind : Char → Bool} (ha : ∀ c ∈ a, kind c = true)
    (hs : ∀ c, s.head? = some c → kind c = false) : (a ++ s).takeWhile kind = a := by
  rw [List.takeWhile_append_of_pos ha]
  cases s with
  | nil => exact List.append_nil a
  | cons c s => rw [List.takeWhile_cons_of_neg (Bool.eq_false_iff.1 (hs c rfl)), List.append_nil]

theorem dropWhile_run {kind : Char → Bool} (ha : ∀ c ∈ a, kind c = true)
    (hs : ∀ c, s.head? = some c → kind c = false) : (a ++ s).dropWhile kind = s := by
  rw [List.dropWhile_append_of_pos ha]
  cases s with
  | nil => rfl
  | cons c s => exact List.dropWhile_cons_of_neg (Bool.eq_false_iff.1 (hs c rfl))

/-- A text is cut in one way behind the run that it begins with. -/
theorem run_append_inj (kind : Char → Bool) (ha : ∀ c ∈ a, kind c = true) (hb : ∀ c ∈ b, kind c = true)
    (hs : ∀ c, s.head? = some c → kind c = false) (ht : ∀ c, t.head? = some c → kind c = false)
    (h : a ++ s = b ++ t) : a = b ∧ s = t := by
  induction a generalizing b with
  | nil =>
    cases b with
    | nil => exact ⟨rfl, h⟩
    | cons c b =>
      have hc := hs c (by rw [← List.nil_append s, h]; rfl)
      rw [hb c List.mem_cons_self] at hc
      nomatch hc
  | cons c a ih =>
    cases b with
    | nil =>
      have hc := ht c (by rw [← List.nil_append t, ← h]; rfl)
      rw [ha c List.mem_cons_self] at hc
      nomatch hc
    | cons d b =>
      obtain ⟨rfl, hrest⟩ := List.cons.inj h
      obtain ⟨rfl, rfl⟩ := ih (fun c hc => ha c (List.mem_cons_of_mem _ hc))
        (fun c hc => hb c (List.mem_cons_of_mem _ hc)) hrest
      exact ⟨rfl, rfl⟩

/-- A text is cut in one way in front of the run that it ends with. -/
theorem append_run_inj (kind : Char → Bool) (ha : ∀ c ∈ a, kind c = true) (hb : ∀ c ∈ b, kind c = true)
    (hs : ∀ c, s.getLast? = some c → kind c = false) (ht : ∀ c, t.getLast? = some c → kind c = false)
    (h : s ++ a = t ++ b) : s = t ∧ a = b := by
  have hreverse : a.reverse ++ s.reverse = b.reverse ++ t.reverse := by
    rw [← List.reverse_append, h, List.reverse_append]
  obtain ⟨hab, hst⟩ := run_append_inj kind (fun c hc => ha c (List.mem_reverse.1 hc))
    (fun c hc => hb c (List.mem_reverse.1 hc)) (fun c hc => hs c (by rwa [List.head?_reverse] at hc))
    (fun c hc => ht c (by rwa [List.head?_reverse] at hc)) hreverse
  exact ⟨List.reverse_inj.1 hst, List.reverse_inj.1 hab⟩

/-- What does not hold a character stands in front of it. -/
theorem exists_append_of_not_mem (hc : c ∉ w) (h : w ++ s = a ++ c :: t) :
    ∃ a', a = w ++ a' ∧ s = a' ++ c :: t := by
  rcases List.append_eq_append_iff.1 h with ⟨a', rfl, hs⟩ | ⟨b, hw, hs⟩
  · exact ⟨a', rfl, hs⟩
  · cases b with
    | nil =>
      rw [List.append_nil] at hw
      exact ⟨[], by rw [hw, List.append_nil], hs.symm⟩
    | cons d b =>
      obtain ⟨rfl, -⟩ := List.cons.inj hs
      exact absurd (hw ▸ List.mem_append_right a List.mem_cons_self) hc

/-- What does not hold a character stands behind it. -/
theorem exists_append_of_not_mem_last (hc : c ∉ w) (h : s ++ w = a ++ c :: t) :
    ∃ t', t = t' ++ w ∧ s = a ++ c :: t' := by
  rcases List.append_eq_append_iff.1 h with ⟨b, rfl, hw⟩ | ⟨b, hs, hb⟩
  · exact absurd (hw ▸ List.mem_append_right b List.mem_cons_self) hc
  · cases b with
    | nil => exact absurd (by rw [← List.nil_append w, ← hb]; exact List.mem_cons_self) hc
    | cons d b =>
      obtain ⟨rfl, ht⟩ := List.cons.inj hb
      exact ⟨b, ht, hs⟩

/-- Between two characters that do not stand in the outer parts of a text there is nothing but the
middle. -/
theorem mem_between {x y : Char} {m p q front mid last : List Char} (hx : x ∉ front) (hy : y ∉ last)
    (h : front ++ (mid ++ last) = p ++ x :: (m ++ y :: q)) (hc : c ∈ m) : c ∈ mid := by
  obtain ⟨p, rfl, hrest⟩ := exists_append_of_not_mem hx h
  have hsplit : mid ++ last = (p ++ x :: m) ++ y :: q := by
    rw [hrest]
    simp
  obtain ⟨q, -, rfl⟩ := exists_append_of_not_mem_last hy hsplit
  simp [hc]

/-- Two braces with white space between them stand in two different words. -/
theorem braces_apart {pre front mid last post g z : List Char} {brace blank : Char}
    (hpre : brace ∉ pre) (hmid : brace ∉ mid) (hpost : brace ∉ post) (hfront : blank ∉ front)
    (hlast : blank ∉ last) (hg : blank ∈ g)
    (h : pre ++ (front ++ (mid ++ (last ++ post))) = a ++ brace :: (g ++ brace :: z)) :
    ∃ a₁ a₂ b₁ b₂, front = a₁ ++ brace :: a₂ ∧ last = b₁ ++ brace :: b₂ ∧
      a = pre ++ a₁ ∧ g = a₂ ++ (mid ++ b₁) := by
  obtain ⟨a₁, rfl, hcut⟩ := exists_append_of_not_mem hpre h
  have hback : front ++ (mid ++ last) ++ post = (a₁ ++ brace :: g) ++ brace :: z := by
    rw [← List.append_assoc] at hcut
    simpa using hcut
  obtain ⟨b₂, -, hcut⟩ := exists_append_of_not_mem_last hpost hback
  rw [List.append_assoc, List.cons_append] at hcut
  obtain ⟨g₁, g₂, rfl⟩ := List.append_of_mem hg
  rcases List.append_eq_append_iff.1 hcut with ⟨u, rfl, hu⟩ | ⟨u, rfl, hu⟩
  · -- both would stand behind the first word
    obtain ⟨v, rfl, hv⟩ := exists_append_of_not_mem hmid hu
    exact absurd (by rw [hv]; simp) hlast
  · cases u with
    | nil =>
      obtain ⟨v, -, hv⟩ := exists_append_of_not_mem (a := []) hmid hu.symm
      exact absurd (by rw [hv]; simp) hlast
    | cons d u =>
      obtain ⟨rfl, hu⟩ := List.cons.inj hu
      have hblank : blank ∉ u := fun hmem => hfront (by simp [hmem])
      have hsplit : u ++ (mid ++ last) = g₁ ++ blank :: (g₂ ++ brace :: b₂) := by
        rw [← List.nil_append (u ++ _)]
        simpa using hu.symm
      obtain ⟨g₁, rfl, hrest⟩ := exists_append_of_not_mem hblank hsplit
      have hbrace : mid ++ last = (g₁ ++ blank :: g₂) ++ brace :: b₂ := by
        rw [hrest]
        simp
      obtain ⟨b₁, hb, hlast'⟩ := exists_append_of_not_mem hmid hbrace
      exact ⟨a₁, u, b₁, b₂, rfl, hlast', rfl, by rw [List.append_assoc, hb]⟩

/-- Whether a text is nothing but white space. -/
def Blanks (w : List Char) : Prop := ∀ c ∈ w, Unicode.isBlank c = true

/-- Whether a text is white space that keeps two words apart. -/
def IsGap (w : List Char) : Prop := w ≠ [] ∧ Blanks w

/-- Whether a text is a run of characters that are no white space. -/
def IsWord (w : List Char) : Prop := w ≠ [] ∧ ∀ c ∈ w, Unicode.isBlank c = false

instance (w : List Char) : Decidable (Blanks w) :=
  decidable_of_iff (w.all Unicode.isListedBlank = true)
    (by simp [Blanks, Unicode.isBlank_eq_isListedBlank])

instance (w : List Char) : Decidable (IsGap w) := inferInstanceAs (Decidable (w ≠ [] ∧ Blanks w))

instance (w : List Char) : Decidable (IsWord w) :=
  decidable_of_iff (w ≠ [] ∧ w.all (fun c => !Unicode.isListedBlank c) = true)
    (by simp [IsWord, Unicode.isBlank_eq_isListedBlank])

theorem Blanks.not_mem (ha : Blanks a) (hc : Unicode.isBlank c = false) : c ∉ a := fun hmem => by
  rw [ha c hmem] at hc
  nomatch hc

theorem IsWord.not_mem (hw : IsWord w) (hc : Unicode.isBlank c = true) : c ∉ w := fun hmem => by
  have hsolid := hw.2 c hmem
  rw [hc] at hsolid
  nomatch hsolid

/-- No text is a gap and a word at its front. -/
theorem IsGap.append_ne_word (ha : IsGap a) (hb : IsWord b) : a ++ s ≠ b ++ t := by
  intro h
  obtain ⟨c, a, rfl⟩ := List.exists_cons_of_ne_nil ha.1
  obtain ⟨d, b, rfl⟩ := List.exists_cons_of_ne_nil hb.1
  obtain ⟨rfl, -⟩ := List.cons.inj h
  exact hb.not_mem (ha.2 c List.mem_cons_self) List.mem_cons_self

/-- White space in front of a word ends where the word begins. -/
theorem blanks_append_inj {word word' : List Char} (ha : Blanks a) (hb : Blanks b)
    (hword : IsWord word) (hword' : IsWord word') (h : a ++ (word ++ s) = b ++ (word' ++ t)) :
    a = b ∧ word ++ s = word' ++ t := by
  have hhead : ∀ {w s : List Char}, IsWord w → ∀ c, (w ++ s).head? = some c →
      Unicode.isBlank c = false := by
    intro w s hw c hc
    rw [List.head?_append_of_ne_nil _ hw.1] at hc
    exact hw.2 c (List.mem_of_head? hc)
  exact run_append_inj Unicode.isBlank ha hb (hhead hword) (hhead hword') h

/-- A text ends in one way with a word, white space and a word. -/
theorem two_words_inj {x word y v x' word' y' v' : List Char} (hword : IsWord word) (hy : IsGap y)
    (hv : ∀ c ∈ v, Unicode.isBlank c = false) (hword' : IsWord word') (hy' : IsGap y')
    (hv' : IsWord v') (h : x ++ (word ++ (y ++ v)) = x' ++ (word' ++ (y' ++ v'))) :
    x ++ word = x' ++ word' := by
  have hlast : ∀ {s t : List Char}, IsGap t → ∀ c, (s ++ t).getLast? = some c →
      (!Unicode.isBlank c) = false := by
    intro s t ht c hc
    rw [List.getLast?_append_of_ne_nil _ ht.1] at hc
    rw [ht.2 c (List.mem_of_getLast? hc)]
    rfl
  have hend : ∀ {s t : List Char}, IsWord t → ∀ c, (s ++ t).getLast? = some c →
      Unicode.isBlank c = false := by
    intro s t ht c hc
    rw [List.getLast?_append_of_ne_nil _ ht.1] at hc
    exact ht.2 c (List.mem_of_getLast? hc)
  have hsolid : ∀ {t : List Char}, (∀ c ∈ t, Unicode.isBlank c = false) →
      ∀ c ∈ t, (!Unicode.isBlank c) = true := by
    intro t ht c hc
    rw [ht c hc]
    rfl
  simp only [← List.append_assoc] at h
  obtain ⟨hcut, -⟩ := append_run_inj (!Unicode.isBlank ·) (hsolid hv) (hsolid hv'.2) (hlast hy)
    (hlast hy') h
  exact (append_run_inj Unicode.isBlank hy.2 hy'.2 (hend hword) (hend hword') hcut).1

end Text

namespace Unicode

variable {c : Char}

theorem inRanges_iff {table : Array (Nat × Nat)} {n : Nat} :
    inRanges table n = true ↔ ∃ r ∈ table.toList, r.1 ≤ n ∧ n ≤ r.2 := by
  rw [inRanges_eq_any, List.any_eq_true]
  simp only [Bool.and_eq_true, decide_eq_true_eq]

/-- No range of white space meets a range of a table. -/
theorem blankRanges_apart : ∀ table ∈ [alphabeticRanges, decimalRanges, connectorRanges, markRanges],
    ∀ r ∈ table.toList, ∀ b ∈ blankRanges.toList, r.2 < b.1 ∨ b.2 < r.1 := by
  decide +kernel

theorem inRanges_of_isBlank (h : isBlank c = true) :
    ∀ table ∈ [alphabeticRanges, decimalRanges, connectorRanges, markRanges],
      inRanges table c.toNat = false := by
  intro table htable
  refine Bool.eq_false_iff.2 fun hin => ?_
  obtain ⟨b, hb, hlow, hhigh⟩ := inRanges_iff.1 h
  obtain ⟨r, hr, hlow', hhigh'⟩ := inRanges_iff.1 hin
  rcases blankRanges_apart table htable r hr b hb with hlt | hlt
  · omega
  · omega

theorem toNat_of_isBlank (h : isBlank c = true) : c.toNat ≤ 32 ∨ 0x80 < c.toNat ∧
    c.toNat ≠ 0x200c ∧ c.toNat ≠ 0x200d := by
  simp only [isBlank, inRanges, blankRanges, List.any_toArray, List.any_cons, List.any_nil,
    Bool.or_eq_true, Bool.and_eq_true, decide_eq_true_eq, Bool.or_false] at h
  omega

theorem isAlphanum_of_isBlank (h : isBlank c = true) : c.isAlphanum = false := by
  have hc := toNat_of_isBlank h
  have hval : c.val.toNat = c.toNat := rfl
  delta Char.isAlphanum Char.isAlpha Char.isUpper Char.isLower Char.isDigit
  simp only [Bool.or_eq_false_iff, Bool.and_eq_false_iff, decide_eq_false_iff_not, ge_iff_le,
    UInt32.le_iff_toNat_le, hval]
  simp only [Char.reduceVal, UInt32.reduceToNat]
  omega

/-- No character of a word is white space. -/
theorem isWordChar_of_isBlank (h : isBlank c = true) : isWordChar c = false := by
  have htable := inRanges_of_isBlank h
  simp only [List.forall_mem_cons] at htable
  obtain ⟨halphabetic, hdecimal, hconnector, hmark, -⟩ := htable
  have hletter : c.isAlpha = false ∧ c.isDigit = false := by
    have := isAlphanum_of_isBlank h
    rwa [Char.isAlphanum, Bool.or_eq_false_iff] at this
  have hline : (c == '_') = false := by
    refine beq_eq_false_iff_ne.2 ?_
    rintro rfl
    exact absurd (toNat_of_isBlank h) (by decide)
  have hjoiner : isJoiner c = false := by
    have := toNat_of_isBlank h
    simp only [isJoiner, Bool.or_eq_false_iff, beq_eq_false_iff_ne]
    omega
  simp only [isWordChar, isAlphabetic, isDecimal, isConnector, isMark, hletter, hline, hjoiner,
    halphabetic, hdecimal, hconnector, hmark, ite_self, Bool.and_false, Bool.or_false,
    Bool.false_and]

end Unicode

end AndroidFonts
