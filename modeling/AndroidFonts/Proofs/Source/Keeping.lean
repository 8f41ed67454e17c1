/-
# `AndroidFonts.Proofs.Source.Keeping` — an insertion keeps what it is found by

A statement that is written into a body may be any text whose braces are balanced, and it stands in a
file of any shape.  Heads are found by patterns that run through braces where a type or the name of a
class may stand, so a head that begins in front of the body could run on into the new text and hide the
head by which the body was found.

It does not.  A method head that runs over the beginning of another one begins there
(`not_takes_method_over`): what stands between its first word and its type is at most the word
`static`, so the other head does not fit in.  A class head that runs over the head of the class and of
the method can be ended at the brace of the body (`takes_class_at_brace`), so it was there before.  Hence
the class and the method are found where they were, and the body is the old one with the statement
in it (`insertInMethod_again`).
-/
import AndroidFonts.Proofs.Source.Nesting

namespace AndroidFonts

open Text Pattern

namespace Dialect

variable {name className methodName w a c g r r' u x z : List Char} {d : Dialect}

theorem isBlank_brace : Unicode.isBlank '{' = false :=
  (Unicode.isBlank_eq_isListedBlank _).trans (by decide)

/-! ## Method heads -/

theorem isWord_of_accessWords : ∀ k ∈ accessWords, IsWord k ∧ '{' ∉ k := by
  intro k hk
  simp only [accessWords, List.mem_cons, List.not_mem_nil, or_false] at hk
  rcases hk with rfl | rfl | rfl
  · exact ⟨by decide, by decide⟩
  · exact ⟨by decide, by decide⟩
  · exact ⟨by decide, by decide⟩

/-- None of the words for who may call a method ends with another one. -/
theorem eq_nil_of_accessWords : ∀ k ∈ accessWords, ∀ k' ∈ accessWords, ∀ u, u ++ k' = k → u = [] := by
  intro k hk k' hk' u h
  have hsuffix : ∀ k ∈ accessWords, ∀ k' ∈ accessWords, k' <:+ k → k' = k := by decide
  have hsame := hsuffix k hk k' hk' ⟨u, h⟩
  rw [hsame] at h
  exact List.append_cancel_right (h.trans (List.nil_append k).symm)

/-- Between its first word and its type a method head holds one word at most. -/
theorem not_two_words {k k' st rest : List Char} {blank letter : Char} (hk : k ∈ accessWords)
    (hk' : k' ∈ accessWords) (hu : u ≠ []) (hg : Blanks g)
    (hst : st = [] ∨ ∃ y, st = "static".toList ++ y ∧ IsGap y)
    (hblank : Unicode.isBlank blank = true) (hletter : Unicode.isBlank letter = false)
    (hin : letter ∈ rest)
    (h : k ++ (g ++ st) = u ++ k' ++ blank :: rest) : False := by
  obtain ⟨hword, -⟩ := isWord_of_accessWords k hk
  obtain ⟨hword', -⟩ := isWord_of_accessWords k' hk'
  obtain ⟨p, hp, hrest⟩ := exists_append_of_not_mem (hword.not_mem hblank) h
  rcases List.eq_nil_or_concat' p with rfl | ⟨p, l, rfl⟩
  · rw [List.append_nil] at hp
    exact hu (eq_nil_of_accessWords k hk k' hk' u hp)
  · -- the last character of the second word, the white space behind it and another word
    have hlast : Unicode.isBlank l = false := by
      have hl := congrArg List.getLast? hp
      rw [List.getLast?_append_of_ne_nil _ hword'.1, ← List.append_assoc, List.getLast?_concat] at hl
      exact hword'.2 l (List.mem_of_getLast? hl)
    obtain ⟨mid, last, rfl, hmid, hlast'⟩ : ∃ mid last, st = mid ++ last ∧
        (∀ c ∈ mid, Unicode.isBlank c = false) ∧ Blanks last := by
      rcases hst with rfl | ⟨y, rfl, hy⟩
      · exact ⟨[], [], rfl, nofun, nofun⟩
      · have hstatic : IsWord "static".toList := by decide
        exact ⟨_, y, rfl, hstatic.2, hy.2⟩
    obtain ⟨r₁, r₂, rfl⟩ := List.append_of_mem hin
    have hbetween := mem_between (hg.not_mem hlast) (hlast'.not_mem hletter)
      (p := p) (m := blank :: r₁) (q := r₂) (by rw [hrest]; simp) List.mem_cons_self
    have hnot := hmid blank hbetween
    rw [hblank] at hnot
    nomatch hnot

theorem ne_nil_of_takes_method (h : Takes (chain (d.methodParts.fill name)) w r) : w ≠ [] := by
  cases d with
  | java =>
    obtain ⟨k, g, st, v, g', t, rfl, -⟩ := exists_of_takes_method_java h
    simp
  | kotlin =>
    obtain ⟨g, g', t, rfl, -⟩ := exists_of_takes_method_kotlin h
    simp

/-- A method head that goes through the beginning of another one and through a brace behind that
begins with it. -/
theorem not_takes_method_over (hname : IsIdentifier name) (hu : u ≠ [])
    (hw : Takes (chain (d.methodParts.fill name)) w r) :
    ¬ Takes (chain (d.methodParts.fill name)) (u ++ (w ++ (a ++ '{' :: x))) r' := by
  intro h
  cases d with
  | kotlin =>
    obtain ⟨g, g', t, heq, hg, hg', ht⟩ := exists_of_takes_method_kotlin h
    have hnot : '{' ∉ "override".toList ++ (g ++ ("fun".toList ++ (g' ++ (name ++ (t ++
        ['(', ')']))))) := by
      simp only [List.mem_append, not_or]
      exact ⟨by decide, hg.2.not_mem isBlank_brace, by decide, hg'.2.not_mem isBlank_brace,
        hname.brace_not_mem, ht.not_mem isBlank_brace, by decide⟩
    exact hnot (heq ▸ by simp)
  | java =>
    obtain ⟨k', b, st', v', b', t', rfl, hk', hb, -, hv', hb', -⟩ := exists_of_takes_method_java hw
    obtain ⟨k, g, st, v, g', t, heq, hk, hg, hst, hv, hg', ht⟩ := exists_of_takes_method_java h
    have hfront : '{' ∉ k ++ (g ++ st) := by
      simp only [List.mem_append, not_or]
      refine ⟨(isWord_of_accessWords k hk).2, hg.2.not_mem isBlank_brace, ?_⟩
      rcases hst with rfl | ⟨y, rfl, hy⟩
      · exact List.not_mem_nil
      · simp only [List.mem_append, not_or]
        exact ⟨by decide, hy.2.not_mem isBlank_brace⟩
    have hback : '{' ∉ g' ++ (name ++ (t ++ ['('])) := by
      simp only [List.mem_append, not_or]
      exact ⟨hg'.2.not_mem isBlank_brace, hname.brace_not_mem, ht.not_mem isBlank_brace, by decide⟩
    -- the brace stands in the type, so what stands in front of the type holds the other head
    obtain ⟨s₁, hs₁, hcut⟩ := exists_append_of_not_mem (a := u ++ ((k' ++ (b ++ (st' ++ (v' ++ (b' ++
      (name ++ (t' ++ ['(']))))))) ++ a)) hfront (by simpa using heq.symm)
    obtain ⟨s₂, -, rfl⟩ := exists_append_of_not_mem_last hback hcut
    obtain ⟨blank, b, rfl⟩ := List.exists_cons_of_ne_nil hb.1
    obtain ⟨blank', b', rfl⟩ := List.exists_cons_of_ne_nil hb'.1
    obtain ⟨letter, v', rfl⟩ := List.exists_cons_of_ne_nil hv'.1
    have hblank := hb'.2 blank' List.mem_cons_self
    have hsolid : blank' ∉ s₁ := fun hmem => hv.not_mem hblank (List.mem_append_left _ hmem)
    obtain ⟨rest, -, hrest⟩ := exists_append_of_not_mem_last (s := k ++ (g ++ st))
      (a := u ++ (k' ++ (blank :: b ++ (st' ++ (letter :: v'))))) hsolid (by simpa using hs₁.symm)
    have hwords : k ++ (g ++ st) =
        u ++ k' ++ blank :: (b ++ (st' ++ (letter :: v' ++ blank' :: rest))) := by
      simpa using hrest
    exact not_two_words hk hk' hu hg.2 hst (hb.2 blank List.mem_cons_self)
      (hv'.2 letter List.mem_cons_self) (by simp) hwords

/-! ## Class heads -/

variable {blank blank' : Char} {m m₁ m₂ m₃ m₄ : List Char}

/-- No word holds two braces with white space between them. -/
theorem not_braces_in_word {pre front post : List Char} (hpre : '{' ∉ pre) (hpost : '{' ∉ post)
    (hfront : blank ∉ front) (hblank : blank ∈ m) :
    pre ++ (front ++ post) ≠ u ++ '{' :: (m ++ '{' :: z) := by
  intro h
  obtain ⟨-, -, b₁, b₂, -, hlast, -⟩ :=
    braces_apart hpre List.not_mem_nil hpost hfront List.not_mem_nil hblank h
  exact List.append_ne_nil_of_right_ne_nil b₁ (List.cons_ne_nil '{' b₂) hlast.symm

theorem not_mem_word_between {word : List Char} {c : Char} (hc : Unicode.isBlank c = false)
    (hg : Blanks g) (hword : c ∉ word) (hg' : Blanks g') : c ∉ g ++ (word ++ g') := by
  simp only [List.mem_append, not_or]
  exact ⟨hg.not_mem hc, hword, hg'.not_mem hc⟩

/-- A class head that goes through two braces with a blank and a parenthesis between them may end with
the second one. -/
theorem takes_class_java_at_brace (hname : IsIdentifier name) (hz : z ≠ [])
    (hblank : Unicode.isBlank blank = true) (hm : m = m₁ ++ blank :: (m₂ ++ '(' :: m₃))
    (h : Takes (chain (Dialect.java.classParts.fill name)) (u ++ '{' :: (m ++ '{' :: z)) r) :
    Takes (chain (Dialect.java.classParts.fill name)) (u ++ '{' :: (m ++ ['{'])) r' := by
  obtain ⟨z, l, rfl⟩ := (List.eq_nil_or_concat' z).resolve_left hz
  obtain ⟨g, e, i, t, heq, hg, he, hi, ht⟩ := takes_class_java.1 h
  have hend : "class".toList ++ (g ++ (name ++ (e ++ (i ++ t)))) ++ ['{'] =
      u ++ '{' :: (m ++ '{' :: z) ++ [l] := by
    simpa using heq.symm
  have hstrip := (List.append_inj' hend rfl).1
  have hfront : '{' ∉ "class".toList ++ (g ++ name) := by
    simp only [List.mem_append, not_or]
    exact ⟨by decide, hg.2.not_mem isBlank_brace, hname.brace_not_mem⟩
  have hpost := ht.not_mem isBlank_brace
  have hin : blank ∈ m := by
    rw [hm]
    simp
  rcases he with rfl | ⟨ge, ge', ve, rfl, hge, hge', hve⟩
  · rcases hi with rfl | ⟨gi, gi', vi, rfl, hgi, hgi', hvi⟩
    · exact absurd (by simpa using hstrip)
        (not_braces_in_word hfront hpost List.not_mem_nil hin)
    · have hpre :=
        not_mem_word_between isBlank_brace hgi.2 (by decide : '{' ∉ "implements".toList) hgi'.2
      exact absurd (by simpa using hstrip) (not_braces_in_word
        (not_or.2 ⟨hfront, hpre⟩ ∘ List.mem_append.1) hpost (hvi.not_mem hblank) hin)
  · have hword :=
      not_mem_word_between isBlank_brace hge.2 (by decide : '{' ∉ "extends".toList) hge'.2
    have hpre := not_or.2 ⟨hfront, hword⟩ ∘ List.mem_append.1
    rcases hi with rfl | ⟨gi, gi', vi, rfl, hgi, hgi', hvi⟩
    · exact absurd (by simpa using hstrip)
        (not_braces_in_word hpre hpost (hve.not_mem hblank) hin)
    · have hmid :=
        not_mem_word_between isBlank_brace hgi.2 (by decide : '{' ∉ "implements".toList) hgi'.2
      obtain ⟨a₁, a₂, b₁, b₂, rfl, rfl, rfl, hbetween⟩ := braces_apart hpre hmid hpost
        (hve.not_mem hblank) (hvi.not_mem hblank) hin (by simpa using hstrip)
      -- the parenthesis stands behind a blank, so it is in the second name
      have hb₁ : b₁ ≠ [] := by
        rintro rfl
        have hfront : blank ∉ a₂ := fun hmem => hve.not_mem hblank (by simp [hmem])
        obtain ⟨q, -, hq⟩ := exists_append_of_not_mem (s := gi ++ ("implements".toList ++ gi'))
          hfront (by simpa using hbetween.symm.trans hm)
        have hparen : Unicode.isBlank '(' = false := (Unicode.isBlank_eq_isListedBlank _).trans (by decide)
        have hword : '(' ∉ "implements".toList := by decide
        refine not_mem_word_between hparen hgi.2 hword hgi'.2 ?_
        rw [hq]
        simp
      refine takes_class_java.2 ⟨g, ge ++ ("extends".toList ++ (ge' ++ (a₁ ++ '{' :: a₂))),
        gi ++ ("implements".toList ++ (gi' ++ b₁)), [], by rw [hbetween]; simp, hg,
        .inr ⟨ge, ge', _, rfl, hge, hge', hve⟩, .inr ⟨gi, gi', b₁, rfl, hgi, hgi', hb₁, ?_⟩, nofun⟩
      exact fun c hc => hvi.2 c (List.mem_append_left _ hc)

/-- No class head goes through two braces with two blanks and the beginning of `fun` between them. -/
theorem not_takes_class_kotlin_over (hname : IsIdentifier name) (hz : z ≠ [])
    (hblank : Unicode.isBlank blank = true) (hblank' : Unicode.isBlank blank' = true)
    (hm : m = m₁ ++ blank :: (m₂ ++ 'f' :: (m₃ ++ blank' :: m₄))) :
    ¬ Takes (chain (Dialect.kotlin.classParts.fill name)) (u ++ '{' :: (m ++ '{' :: z)) r := by
  intro h
  have hgap : ∀ {g}, Blanks g → '{' ∉ g := fun hg => hg.not_mem isBlank_brace
  obtain ⟨z, l, rfl⟩ := (List.eq_nil_or_concat' z).resolve_left hz
  obtain ⟨g, t₁, t₂, v, t₃, k, t₄, last, heq, hg, ht₁, ht₂, hv, ht₃, hk, ht₄, hlast⟩ :=
    exists_of_takes_class_kotlin h
  have hpre : '{' ∉ "class".toList ++ (g ++ (name ++ (t₁ ++ ([':'] ++ t₂)))) := by
    simp only [List.mem_append, not_or]
    exact ⟨by decide, hgap hg.2, hname.brace_not_mem, hgap ht₁, by decide, hgap ht₂⟩
  have hmid : ∀ {c}, Unicode.isBlank c = false → c ∉ ['(', ')'] → c ∉ [','] →
      c ∉ ['(', ')'] ++ (t₃ ++ (k ++ t₄)) := by
    intro c hsolid hparen hcomma
    have hk : c ∉ k := by
      rcases hk with rfl | rfl
      · exact List.not_mem_nil
      · exact hcomma
    exact not_or.2 ⟨hparen, not_mem_word_between hsolid ht₃ hk ht₄⟩ ∘ List.mem_append.1
  have hopen := hmid isBlank_brace (by decide) (by decide)
  have hin : blank ∈ m := by
    rw [hm]
    simp
  have hend : "class".toList ++ (g ++ (name ++ (t₁ ++ ([':'] ++ t₂)))) ++ (v ++
      (['(', ')'] ++ (t₃ ++ (k ++ t₄)) ++ last)) ++ ['{'] = u ++ '{' :: (m ++ '{' :: z) ++ [l] := by
    simpa using heq.symm
  have hstrip := (List.append_inj' hend rfl).1
  rcases hlast with rfl | ⟨v', t, rfl, hv', ht⟩
  · refine absurd hstrip (not_braces_in_word hpre ?_ (hv.not_mem hblank) hin)
    rw [List.append_nil]
    exact hopen
  · obtain ⟨a₁, a₂, b₁, b₂, rfl, rfl, rfl, hbetween⟩ := braces_apart hpre hopen (hgap ht)
      (hv.not_mem hblank) (hv'.not_mem hblank) hin (by simpa using hstrip)
    have hfront : blank ∉ a₂ := fun hmem => hv.not_mem hblank (by simp [hmem])
    have hback : blank' ∉ b₁ := fun hmem => hv'.not_mem hblank' (by simp [hmem])
    have hcut : a₂ ++ (['(', ')'] ++ (t₃ ++ (k ++ t₄)) ++ b₁) =
        m₁ ++ blank :: (m₂ ++ 'f' :: m₃ ++ blank' :: m₄) := by
      rw [← hbetween, hm]
      simp
    have hletter : 'f' ∈ m₂ ++ 'f' :: m₃ := by simp
    have hsolid : Unicode.isBlank 'f' = false := (Unicode.isBlank_eq_isListedBlank _).trans (by decide)
    exact hmid hsolid (by decide) (by decide) (mem_between hfront hback hcut hletter)

/-- A class head that goes through a method head and through a brace behind that may end with this
brace. -/
theorem takes_class_at_brace (hname : IsIdentifier name)
    (hw : Takes (chain (d.methodParts.fill methodName)) w r) (hz : z ≠ [])
    (h : Takes (chain (d.classParts.fill name)) (u ++ '{' :: (c ++ (w ++ a) ++ '{' :: z)) r') :
    Takes (chain (d.classParts.fill name)) (u ++ '{' :: (c ++ (w ++ a) ++ ['{'])) x := by
  cases d with
  | java =>
    obtain ⟨k, b, st, v, b', t, rfl, -, hb, -⟩ := exists_of_takes_method_java hw
    obtain ⟨blank, b, rfl⟩ := List.exists_cons_of_ne_nil hb.1
    have hm : c ++ (k ++ (blank :: b ++ (st ++ (v ++ (b' ++ (methodName ++ (t ++ ['('])))))) ++ a) =
        (c ++ k) ++ blank :: ((b ++ (st ++ (v ++ (b' ++ (methodName ++ t))))) ++ '(' :: a) := by
      simp
    exact takes_class_java_at_brace hname hz (hb.2 blank List.mem_cons_self) hm h
  | kotlin =>
    obtain ⟨b, b', t, rfl, hb, hb', -⟩ := exists_of_takes_method_kotlin hw
    obtain ⟨blank, b, rfl⟩ := List.exists_cons_of_ne_nil hb.1
    obtain ⟨blank', b', rfl⟩ := List.exists_cons_of_ne_nil hb'.1
    have hm : c ++ ("override".toList ++ (blank :: b ++ ("fun".toList ++ (blank' :: b' ++
        (methodName ++ (t ++ ['(', ')']))))) ++ a) = (c ++ "override".toList) ++ blank :: (b ++
          'f' :: (['u', 'n'] ++ blank' :: (b' ++ (methodName ++ (t ++ (['(', ')'] ++ a)))))) := by
      simp
    exact absurd h (not_takes_class_kotlin_over hname hz (hb.2 blank List.mem_cons_self)
      (hb'.2 blank' List.mem_cons_self) hm)

/-- What stands behind the brace of a method has no part in whether a class head matches in front. -/
theorem ends_class_eq_nil (hname : IsIdentifier name)
    (hw : Takes (chain (d.methodParts.fill methodName)) w r) {y y' : List Char}
    (h : (chain (d.classParts.fill name)).ends (u ++ '{' :: (c ++ (w ++ a) ++ ['{']) ++ y) = []) :
    (chain (d.classParts.fill name)).ends (u ++ '{' :: (c ++ (w ++ a) ++ ['{']) ++ y') = [] := by
  by_contra hne
  obtain ⟨r', hr'⟩ := List.exists_mem_of_ne_nil _ hne
  obtain ⟨v, htext, hv⟩ := mem_ends_iff.1 hr'
  obtain ⟨v', hv', z, hz⟩ : ∃ v', Takes (chain (d.classParts.fill name)) v' [] ∧
      v' <+: u ++ '{' :: (c ++ (w ++ a) ++ ['{']) := by
    rcases List.append_eq_append_iff.1 htext with ⟨z, rfl, -⟩ | ⟨z, hz, -⟩
    · -- the head runs over the brace, where it can be ended
      by_cases hempty : z = []
      · rw [hempty, List.append_nil] at hv
        exact ⟨_, hv.of_isLocal (isLocal_class d name) [], List.prefix_refl _⟩
      · have hbeyond : u ++ '{' :: (c ++ (w ++ a) ++ ['{']) ++ z =
            u ++ '{' :: (c ++ (w ++ a) ++ '{' :: z) := by simp
        rw [hbeyond] at hv
        exact ⟨_, takes_class_at_brace hname hw hempty hv, List.prefix_refl _⟩
    · exact ⟨v, hv.of_isLocal (isLocal_class d name) [], z, hz.symm⟩
  have hmem := mem_ends_of_takes (hv'.of_isLocal (isLocal_class d name) (z ++ y))
  rw [← List.append_assoc, hz, h] at hmem
  nomatch hmem

/-- What stands behind the brace of a method has no part in where the first class head begins, if that
is in front of the method. -/
theorem exists_find?_class (hname : IsIdentifier name)
    (hw : Takes (chain (d.methodParts.fill methodName)) w r) {before matched y : List Char}
    (h : (chain (d.classParts.fill name)).find? s =
      some ⟨before, matched, c ++ (w ++ (a ++ '{' :: y))⟩) (y' : List Char) :
    ∃ w' r', (chain (d.classParts.fill name)).find?
      (before ++ (matched ++ (c ++ (w ++ (a ++ '{' :: y'))))) = some ⟨before, w', r'⟩ := by
  obtain ⟨-, hchosen, hnone⟩ := find?_eq_some_iff.1 h
  obtain ⟨v, rfl⟩ := exists_of_takes_class (takes_of_head? hchosen)
  have hcut : ∀ u y, u ++ (v ++ ['{'] ++ (c ++ (w ++ (a ++ '{' :: y)))) =
      (u ++ v) ++ '{' :: (c ++ (w ++ a) ++ ['{']) ++ y := by
    intro u y
    simp
  have hnil : ∀ u y y', (chain (d.classParts.fill name)).ends
      (u ++ (v ++ ['{'] ++ (c ++ (w ++ (a ++ '{' :: y))))) = [] →
        (chain (d.classParts.fill name)).ends
          (u ++ (v ++ ['{'] ++ (c ++ (w ++ (a ++ '{' :: y'))))) = [] := by
    intro u y y' hu
    rw [hcut] at hu ⊢
    exact ends_class_eq_nil hname hw hu
  have hfirst : (chain (d.classParts.fill name)).ends
      (v ++ ['{'] ++ (c ++ (w ++ (a ++ '{' :: y')))) ≠ [] := by
    intro hempty
    have hback := hnil [] y' y hempty
    rw [List.nil_append] at hback
    rw [hback] at hchosen
    nomatch hchosen
  obtain ⟨w', r', hw', hchosen', -⟩ := exists_head?_of_ne_nil hfirst
  refine ⟨w', r', find?_eq_some_iff.2 ⟨by rw [hw'], hchosen', fun u u' hu hne => ?_⟩⟩
  rw [← hw']
  exact hnil u' y y' (hnone u u' hu hne)

/-- What stands behind the brace of a method has no part in where its head begins. -/
theorem exists_firstWhere_method (hname : IsIdentifier name) (begins : List Char → Bool)
    {before y : List Char}
    (h : firstWhere begins ((chain (d.methodParts.fill name)).findAll s) =
      some ⟨before, w, a ++ '{' :: y⟩) (y' : List Char) :
    ∃ w' r', w' ++ r' = w ++ (a ++ '{' :: y') ∧
      firstWhere begins ((chain (d.methodParts.fill name)).findAll
        (before ++ (w ++ (a ++ '{' :: y')))) = some ⟨before, w', r'⟩ := by
  have hmem := mem_of_firstWhere h
  obtain ⟨-, -, hchosen⟩ := matchAt?_eq_some_iff.1 (matchAt?_of_mem_findFrom hmem)
  have hw : Takes (chain (d.methodParts.fill name)) w (a ++ '{' :: y) := takes_of_head? hchosen
  have hcut : ∀ y, w ++ (a ++ '{' :: y) = w ++ a ++ ['{'] ++ y := by simp
  have hsame : ∀ v u, before = v ++ u → u ≠ [] → (chain (d.methodParts.fill name)).SameMatches u
      (w ++ a ++ ['{'] ++ y) (w ++ a ++ ['{'] ++ y') := by
    intro v u _ hu
    refine sameMatches_of_forall_le (isLocal_method d name) fun r hr => ?_
    by_contra hlt
    obtain ⟨w', htext, hw'⟩ := mem_ends_iff.1 hr
    -- the head would end behind the brace
    rw [← List.append_assoc] at htext
    rcases List.append_eq_append_iff.1 htext with ⟨x, rfl, -⟩ | ⟨x, -, rfl⟩
    · have hbeyond : u ++ (w ++ a ++ ['{']) ++ x = u ++ (w ++ (a ++ '{' :: x)) := by simp
      rw [hbeyond] at hw'
      exact not_takes_method_over hname hu hw hw'
    · exact hlt (by simp)
  obtain ⟨w', r', hw', hchosen', htakes⟩ := exists_head?_of_ne_nil (List.ne_nil_of_mem
    (mem_ends_of_takes (hw.of_isLocal (isLocal_method d name) (a ++ '{' :: y'))))
  refine ⟨w', r', hw'.symm, ?_⟩
  have htext : s = before ++ (w ++ (a ++ '{' :: y)) := by
    rw [← text_of_mem_findFrom hmem, Match.text, List.append_assoc]
  rw [htext, hcut] at h
  rw [hcut]
  refine firstWhere_findFrom_congr hsame ?_ (ne_nil_of_takes_method htakes) h
  rw [← hcut]
  exact matchAt?_eq_some_iff.2 ⟨rfl, hw', hw' ▸ hchosen'⟩

end Dialect

/-! ## Bodies -/

namespace Body

variable {b : Body} {d : Dialect} {ch mh : Match} {s a y : List Char}
  {text patched className methodName snippet : String} {afterLine : Option String}

theorem locate_of_declarations
    (hch : (Anchor.classHead className).first? d text.toList = some ch)
    (hmh : ((Anchor.methodHead methodName).all d text.toList).find? (fun m => ch.start < m.start) =
      some mh)
    (hbody : firstIn? mh.before (mh.matched ++ mh.after) = some b) :
    locate text className methodName d = .ok b := by
  rw [locate_eq, hch]
  simp only [hmh, hbody]

/-- What stands behind the brace of the method has no part in where the class and the method are
found. -/
theorem declarations_congr (hclass : Dialect.IsIdentifier className.toList)
    (hmethod : Dialect.IsIdentifier methodName.toList)
    (hch : (Anchor.classHead className).first? d s = some ch)
    (hmh : ((Anchor.methodHead methodName).all d s).find? (fun m => ch.start < m.start) = some mh)
    (hafter : mh.after = a ++ '{' :: y) (hstop : ch.stop ≤ mh.start) (y' : List Char) :
    ∃ ch' mh', (Anchor.classHead className).first? d
        (mh.before ++ (mh.matched ++ (a ++ '{' :: y'))) = some ch' ∧
      ((Anchor.methodHead methodName).all d
        (mh.before ++ (mh.matched ++ (a ++ '{' :: y')))).find? (fun m => ch'.start < m.start) =
          some mh' ∧
      mh'.before = mh.before ∧ mh'.matched ++ mh'.after = mh.matched ++ (a ++ '{' :: y') := by
  obtain ⟨before, matched, after⟩ := ch
  obtain ⟨before', matched', after'⟩ := mh
  obtain rfl : after' = a ++ '{' :: y := hafter
  rw [Anchor.first?_eq] at hch
  rw [Anchor.all_eq] at hmh
  simp only [Anchor.first?_eq, Anchor.all_eq]
  obtain ⟨htext, -, -⟩ := find?_eq_some_iff.1 hch
  have hmem := List.mem_of_find?_eq_some hmh
  have htext' : before' ++ (matched' ++ (a ++ '{' :: y)) = s :=
    (List.append_assoc ..).symm.trans (text_of_mem_findFrom hmem)
  obtain ⟨-, -, hchosen⟩ := matchAt?_eq_some_iff.1 (matchAt?_of_mem_findFrom hmem)
  obtain ⟨c, rfl⟩ : before ++ matched <+: before' := by
    refine prefix_of_byteLength_le (s := s) ⟨after, by rw [htext, List.append_assoc]⟩ ⟨_, htext'⟩ ?_
    rw [byteLength_append]
    exact hstop
  have hcut : before ++ (matched ++ after) =
      before ++ (matched ++ (c ++ (matched' ++ (a ++ '{' :: y)))) := by
    rw [← htext, ← htext']
    simp
  obtain rfl := List.append_cancel_left (List.append_cancel_left hcut)
  obtain ⟨w, r, hfirst⟩ := Dialect.exists_find?_class hclass (takes_of_head? hchosen) hch y'
  obtain ⟨w', r', hrest, hlisted⟩ := Dialect.exists_firstWhere_method hmethod
    (fun front => byteLength before < byteLength front) hmh y'
  have hlate : before ++ matched ++ c ++ (matched' ++ (a ++ '{' :: y')) =
      before ++ (matched ++ (c ++ (matched' ++ (a ++ '{' :: y')))) := by
    simp
  exact ⟨⟨before, w, r⟩, ⟨before ++ matched ++ c, w', r'⟩, hlate ▸ hfirst, hlisted, rfl, hrest⟩

/-- A balanced statement is written once: in the new text the class and the method are found where they
were, their body has grown by what was written, and it holds the statement. -/
theorem insertInMethod_again (hclass : Dialect.IsIdentifier className.toList)
    (hmethod : Dialect.IsIdentifier methodName.toList) (hsnippet : Balanced snippet.toList)
    (hlocate : locate text className methodName d = .ok b)
    (hheads : ∃ ch mh, (Anchor.classHead className).first? d text.toList = some ch ∧
      ((Anchor.methodHead methodName).all d text.toList).find? (fun m => ch.start < m.start) =
        some mh ∧ ch.stop ≤ mh.start ∧ '{' ∉ mh.matched)
    (h : insertInMethod text className methodName snippet afterLine d = .ok (.applied patched)) :
    ∃ b' n, byteLength patched.toList = byteLength text.toList + n ∧
      locate patched className methodName d = .ok b' ∧
      b'.span = ⟨b.span.opening, b.span.closing + n⟩ ∧
      insertInMethod patched className methodName snippet afterLine d = .ok .alreadyApplied := by
  -- the old body
  obtain ⟨ch, mh, hch, hmh, hstop, hclear⟩ := hheads
  obtain ⟨ch', mh', hch', hmh', hbody⟩ := declarations_of_locate hlocate
  obtain rfl := Option.some.inj (hch.symm.trans hch')
  obtain rfl := Option.some.inj (hmh.symm.trans hmh')
  have hmem := List.mem_of_find?_eq_some hmh
  rw [Anchor.all_eq] at hmem
  obtain ⟨head, hhead, hbefore, hrest, hsplit⟩ := firstIn?_eq_some_iff.1 hbody
  obtain ⟨a, rfl, hafter⟩ := exists_append_of_not_mem hclear hrest
  -- the new text
  rw [insertInMethod, hlocate] at h
  obtain ⟨front, back, hpoint, hpatched⟩ := insert_eq_applied h
  obtain ⟨hinside, -⟩ := insertionPoint_eq_ok hpoint
  have hnew : patched.toList = mh.before ++ (mh.matched ++ (a ++ '{' ::
      (front ++ (b.newline ++ indent ++ snippet.toList) ++ back ++ b.after))) := by
    rw [hpatched, hbefore]
    simp
  obtain ⟨ch', mh', hch', hmh', hsame, hrest'⟩ :=
    declarations_congr hclass hmethod hch hmh hafter hstop
      (front ++ (b.newline ++ indent ++ snippet.toList) ++ back ++ b.after)
  rw [← hnew] at hch' hmh'
  have hbody' : firstIn? mh'.before (mh'.matched ++ mh'.after) = some ⟨b.before,
      front ++ (b.newline ++ indent ++ snippet.toList) ++ back, b.after⟩ := by
    refine firstIn?_eq_some_iff.2 ⟨mh.matched ++ a, hhead, by rw [hbefore, hsame], ?_, ?_⟩
    · rw [hrest', List.append_assoc mh.matched]
    · have hx : Balanced (b.newline ++ indent ++ snippet.toList) := by
        refine Balanced.append ?_ hsnippet
        rcases b.newline_cases with hline | hline
        · rw [hline]
          decide
        · rw [hline]
          decide
      rw [hinside] at hsplit
      exact splitAtClose?_insert hx hsplit
  have hlocate' := locate_of_declarations hch' hmh' hbody'
  refine ⟨_, byteLength (b.newline ++ indent ++ snippet.toList), ?_, hlocate', ?_, ?_⟩
  · have htext : text.toList = b.before ++ (b.inside ++ b.after) := by
      rw [text_eq_of_firstIn? hbody, ← List.append_assoc]
      exact (text_of_mem_findFrom hmem).symm
    rw [hpatched, htext, hinside]
    simp only [byteLength_append]
    omega
  · simp only [span, hinside, byteLength_append, Span.mk.injEq, true_and]
    omega
  · rw [insertInMethod, hlocate']
    refine insert_of_infix ((isInfix_trim _).trans ?_)
    exact ⟨front ++ (b.newline ++ indent), back, by simp⟩

/-- A class with a method, which is a statement as well. -/
def classOfMethod : String := "class A\x7bpublic void f()\x7b\x7d\x7d"

theorem insertInMethod_again_of_class : ∃ patched,
    insertInMethod classOfMethod "A" "f" classOfMethod none .java = .ok (.applied patched) ∧
      insertInMethod patched "A" "f" classOfMethod none .java = .ok .alreadyApplied := by
  have hlocate : locate classOfMethod "A" "f" .java = .ok ⟨"class A\x7bpublic void f()\x7b".toList, [],
      "\x7d\x7d".toList⟩ := by decide +kernel
  have hinsert : insertInMethod classOfMethod "A" "f" classOfMethod none .java = .ok (.applied
      "class A\x7bpublic void f()\x7b\n    class A\x7bpublic void f()\x7b\x7d\x7d\x7d\x7d") := by
    decide +kernel
  have hheads : ∃ ch mh, (Anchor.classHead "A").first? .java classOfMethod.toList = some ch ∧
      ((Anchor.methodHead "f").all .java classOfMethod.toList).find? (fun m => ch.start < m.start) =
        some mh ∧ ch.stop ≤ mh.start ∧ '{' ∉ mh.matched :=
    ⟨⟨[], "class A\x7b".toList, "public void f()\x7b\x7d\x7d".toList⟩,
      ⟨"class A\x7b".toList, "public void f(".toList, ")\x7b\x7d\x7d".toList⟩,
      by decide +kernel, by decide +kernel, by decide, by decide⟩
  obtain ⟨b', n, -, -, -, hagain⟩ := insertInMethod_again (by decide) (by decide) (by decide)
    hlocate hheads hinsert
  exact ⟨_, hinsert, hagain⟩

end Body

end AndroidFonts
