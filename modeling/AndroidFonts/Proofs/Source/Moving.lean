/-
# `AndroidFonts.Proofs.Source.Moving` — an import moves the place of registration and nothing else

An import is written behind the package declaration, and the class and the method that families are
registered in are looked for in the whole text.  Where the class follows the package declaration, all
that is found by its head and by that of the method follows it too, and comes to stand as many bytes
further on as were written (`locate_of_addImport`).

Two things could go wrong.  The new text could be part of a head: no head runs into it and none begins
in it, which is found out by reading it (`unread_import`).  And a method head that begins in front of the
end of the package declaration could have covered another one behind it, which the import would bring to
light.  Where a declaration ends with a semicolon there is no such head, since the semicolon would stand
in the type of the method, and the word in front of that is not `package`
(`not_takes_method_over_package`).  Elsewhere there may be one, as in `package override fun onCreate()`,
but no other head begins in what it covers (`clear_of_takes_method_kotlin`).
-/
import AndroidFonts.Proofs.Pattern.Skipping
import AndroidFonts.Proofs.Source.Declarations
import AndroidFonts.Proofs.Source.Importing
import AndroidFonts.Proofs.Source.Keeping
import AndroidFonts.Proofs.Source.Registration

namespace AndroidFonts

open Text Pattern

/-! ## Heads over the end of the package declaration -/

namespace Dialect

variable {d : Dialect} {name w r a b c g k n o s st u z : List Char}

theorem exists_of_takes_package (h : Takes (chain d.packageParts) w r) :
    ∃ g n, w = "package".toList ++ (g ++ (n ++ d.terminator.toList)) ∧ IsGap g ∧ IsWord n := by
  have hparts : d.packageParts = spelled "package".toList ++ Pattern.gap ::
      many1 packageSet :: spelled d.terminator.toList := rfl
  rw [hparts] at h
  simp only [takes_spelled_append, takes_chain_gap] at h
  obtain ⟨-, rfl, g, m, rfl, hg, hm⟩ := h
  obtain ⟨n, t, rfl, hn, ht⟩ := takes_chain_cons.1 hm
  obtain ⟨hne, hset⟩ := takes_many1.1 hn
  exact ⟨g, n, by rw [takes_spelled.1 ht], hg, isWord_of_packageSet hne hset⟩

/-- The words that stand in front of the type of a method. -/
def leadWords : List (List Char) := "static".toList :: accessWords

theorem isWord_of_leadWords : ∀ k ∈ leadWords, IsWord k := by decide

/-- None of the words in front of a type ends a text as `package` does. -/
theorem not_suffix_of_leadWords :
    ∀ k ∈ leadWords, ¬ k <:+ "package".toList ∧ ¬ "package".toList <:+ k := by decide

/-- In front of the type of a method stands one of its words. -/
theorem exists_leadWord (hk : k ∈ accessWords) (hg : IsGap g)
    (hst : st = [] ∨ ∃ u, st = "static".toList ++ u ∧ IsGap u) :
    ∃ x word y, k ++ (g ++ st) = x ++ (word ++ y) ∧ word ∈ leadWords ∧ IsGap y := by
  rcases hst with rfl | ⟨y, rfl, hy⟩
  · exact ⟨[], k, g, by simp, List.mem_cons_of_mem _ hk, hg⟩
  · exact ⟨k ++ g, "static".toList, y, by simp, List.mem_cons_self, hy⟩

/-- Where the package declaration ends with a semicolon, no method head runs over its end. -/
theorem not_takes_method_over_package (hname : ';' ∉ name) (hg : IsGap g) (hn : IsWord n)
    (ha : b ++ ("package".toList ++ (g ++ (n ++ [';']))) = s ++ u) (hu : u ≠ []) :
    ¬ Takes (chain (Dialect.java.methodParts.fill name)) (u ++ o) z := by
  intro h
  obtain ⟨k, g₁, st, v, g₂, t, hw, hk, hg₁, hst, hv, hg₂, ht⟩ := exists_of_takes_method_java h
  have hsemicolon : Unicode.isBlank ';' = false :=
    (Unicode.isBlank_eq_isListedBlank _).trans (by decide)
  obtain ⟨x, word, y, hlead, hword, hy⟩ := exists_leadWord hk hg₁ hst
  -- the semicolon at the end of the declaration stands in the type of the method
  obtain ⟨u, e, rfl⟩ := (List.eq_nil_or_concat' u).resolve_left hu
  have hlast : b ++ ("package".toList ++ (g ++ n)) = s ++ u ∧ [';'] = [e] := by
    refine List.append_inj' ?_ rfl
    simpa using ha
  obtain ⟨hdeclared, heq⟩ := hlast
  obtain rfl := (List.cons.inj heq).1
  have hfront : ';' ∉ k ++ (g₁ ++ st) := by
    simp only [List.mem_append, not_or]
    refine ⟨?_, hg₁.2.not_mem hsemicolon, ?_⟩
    · have hnone : ∀ k ∈ accessWords, ';' ∉ k := by decide
      exact hnone k hk
    · rcases hst with rfl | ⟨y, rfl, hy⟩
      · exact List.not_mem_nil
      · simp only [List.mem_append, not_or]
        exact ⟨by decide, hy.2.not_mem hsemicolon⟩
  have hback : ';' ∉ g₂ ++ (name ++ (t ++ ['('])) := by
    simp only [List.mem_append, not_or]
    exact ⟨hg₂.2.not_mem hsemicolon, hname, ht.not_mem hsemicolon, by decide⟩
  obtain ⟨v₁, rfl, hcut⟩ := exists_append_of_not_mem (a := u) (t := o) hfront (by simpa using hw.symm)
  obtain ⟨v₂, -, rfl⟩ := exists_append_of_not_mem_last hback hcut
  -- so the word in front of it is that of the declaration
  have hwords : s ++ x ++ word = b ++ "package".toList := by
    refine two_words_inj (isWord_of_leadWords word hword) hy
      (fun c hc => hv.2 c (List.mem_append_left _ hc)) (by decide) hg hn ?_
    rw [hdeclared, hlead]
    simp
  have hends : word <:+ b ++ "package".toList := ⟨s ++ x, hwords⟩
  obtain ⟨hnot, hnot'⟩ := not_suffix_of_leadWords word hword
  rcases List.suffix_or_suffix_of_suffix hends (List.suffix_append b _) with hsuffix | hsuffix
  · exact hnot hsuffix
  · exact hnot' hsuffix

/-- No method head begins inside another one. -/
theorem clear_of_takes_method_kotlin (hname : 'v' ∉ name) (hu : u ≠ [])
    (h : Takes (chain (Dialect.kotlin.methodParts.fill name)) (u ++ o) z) :
    (chain (Dialect.kotlin.methodParts.fill name)).Clear o z := by
  intro a b hab hb
  refine List.eq_nil_iff_forall_not_mem.2 fun r hr => ?_
  obtain ⟨g, g', t, hw, hg, hg', ht⟩ := exists_of_takes_method_kotlin h
  obtain ⟨w, hbz, hinner⟩ := mem_ends_iff.1 hr
  obtain ⟨g₁, g₂, t', rfl, -⟩ := exists_of_takes_method_kotlin hinner
  have hletter : Unicode.isBlank 'v' = false :=
    (Unicode.isBlank_eq_isListedBlank _).trans (by decide)
  -- the inner head is read up to its second letter, which the outer one has but once
  obtain ⟨b, e, rfl⟩ := (List.eq_nil_or_concat' b).resolve_left hb
  have hlast : u ++ (a ++ b) = ['o', 'v'] ++ ("erride".toList ++ (g ++ ("fun".toList ++
      (g' ++ (name ++ (t ++ ['('])))))) ∧ [e] = [')'] := by
    refine List.append_inj' ?_ rfl
    rw [hab] at hw
    simpa using hw
  obtain ⟨houter, heq⟩ := hlast
  obtain rfl := (List.cons.inj heq).1
  have hclosing : ')' ∉ ['o', 'v'] := by decide
  obtain ⟨b', rfl, -⟩ := exists_append_of_not_mem (a := b) (t := z) hclosing (by simpa using hbz.symm)
  have hbehind : 'v' ∉ "erride".toList ++ (g ++ ("fun".toList ++ (g' ++ (name ++ (t ++ ['(']))))) := by
    simp only [List.mem_append, not_or]
    exact ⟨by decide, hg.2.not_mem hletter, by decide, hg'.2.not_mem hletter, hname,
      ht.not_mem hletter, by decide⟩
  obtain ⟨t', -, hshort⟩ := exists_append_of_not_mem_last (s := ['o', 'v'])
    (a := u ++ (a ++ ['o'])) (t := b') hbehind (by simpa using houter.symm)
  have hlength := congrArg List.length hshort
  have hpos := List.length_pos_of_ne_nil hu
  simp only [List.length_append, List.length_cons, List.length_nil] at hlength
  omega

/-- What a method head covers behind the package declaration holds no beginning of another one. -/
theorem runsClear_package (hsemicolon : ';' ∉ name) (hletter : 'v' ∉ name)
    (h : Takes (chain d.packageParts) w r) (b s : List Char) :
    (chain (d.methodParts.fill name)).RunsClear (b ++ w) s := by
  intro v u o z hsplit hu hs hmatch
  obtain ⟨-, htext, hchosen⟩ := matchAt?_eq_some_iff.1 hmatch
  rw [htext] at hchosen
  have hhead := takes_of_head? hchosen
  obtain ⟨g, n, rfl, hg, hn⟩ := exists_of_takes_package h
  cases d with
  | java => exact absurd hhead (not_takes_method_over_package hsemicolon hg hn hsplit hu)
  | kotlin => exact clear_of_takes_method_kotlin hletter hu hhead

end Dialect

/-! ## The import -/

namespace Registration

/-- What is written behind the package declaration. -/
def importText (d : Dialect) : List Char :=
  ['\n', '\n'] ++ (d.importStatement managerImport).toList

/-- Whether a text is neither gone on into nor begun in by an anchor. -/
structure Unread (d : Dialect) (x : List Char) (a : Anchor) : Prop where
  stops : dead x (chain (a.parts d)).residuals = true
  nonempty : (chain (a.parts d)).nullable = false
  clear : ∀ b ∈ x.tails, b ≠ [] → dead b [chain (a.parts d)] = true

instance (d : Dialect) (x : List Char) (a : Anchor) : Decidable (Unread d x a) :=
  decidable_of_iff
    (dead x (chain (a.parts d)).residuals = true ∧ (chain (a.parts d)).nullable = false ∧
      ∀ b ∈ x.tails, b ≠ [] → dead b [chain (a.parts d)] = true)
    ⟨fun ⟨hstops, hnonempty, hclear⟩ => ⟨hstops, hnonempty, hclear⟩, fun h => ⟨h.1, h.2, h.3⟩⟩

/-- No head that families are registered by goes on in the import or begins in it. -/
theorem unread_import : ∀ d ∈ [Dialect.java, .kotlin], ∀ a ∈ heads,
    Unread d (importText d) a := by
  decide +kernel

theorem stops_import (d : Dialect) {a : Anchor} (ha : a ∈ heads)
    (hlocal : (chain (a.parts d)).isLocal = true) :
    (chain (a.parts d)).Stops (importText d) ∧ ∀ s, (chain (a.parts d)).Clear (importText d) s := by
  obtain ⟨hdead, hnull, htails⟩ := unread_import d (mem_dialects d) a ha
  have hstops := stops_of_dead hlocal hdead []
  rw [List.append_nil] at hstops
  exact ⟨hstops, clear_of_dead hlocal hnull htails⟩

end Registration

/-! ## The place of registration -/

/-- The same span in a text with so many bytes more in front. -/
def Span.shift (n : Nat) (s : Span) : Span := ⟨s.opening + n, s.closing + n⟩

namespace Body

variable {d : Dialect} {ch pk : Match} {text patched className methodName : String}
  {front rest x : List Char}

/-- The same body in a text with more in front. -/
def behind (x : List Char) (b : Body) : Body := { b with before := x ++ b.before }

theorem firstIn?_append (x front rest : List Char) :
    firstIn? (x ++ front) rest = (firstIn? front rest).map (behind x) := by
  unfold firstIn?
  cases cut? ['\x7b'] rest with
  | none => rfl
  | some parts =>
    obtain ⟨head, tail⟩ := parts
    cases hsplit : splitAtClose? 0 tail with
    | none => simp [bind, Option.bind, hsplit]
    | some cut => simp [bind, Option.bind, hsplit, behind, pure]

/-- Where a body has been found, it begins behind a brace. -/
theorem span_behind {b : Body} (h : firstIn? front rest = some b) (x : List Char) :
    (b.behind x).span = b.span.shift (byteLength x) := by
  obtain ⟨head, -, hbefore, -⟩ := firstIn?_eq_some_iff.1 h
  have hbrace : byteLength ['\x7b'] = 1 := rfl
  simp only [behind, span, Span.shift, hbefore, byteLength_append, hbrace, Span.mk.injEq]
  omega

theorem declaration?_of_class (h : (Anchor.classHead className).first? d text.toList = some ch) :
    declaration? text className methodName d =
      firstWhere (fun before => byteLength ch.before < byteLength before)
        ((chain ((Anchor.methodHead methodName).parts d)).findAll text.toList) := by
  rw [declaration?, h, ← Anchor.all_eq]
  rfl

/-- Where the class has been found and no declaration behind its beginning, the method is missing. -/
theorem locate_of_no_declaration
    (hch : (Anchor.classHead className).first? d text.toList = some ch)
    (h : declaration? text className methodName d = none) :
    locate text className methodName d = .error (.methodNotFound className methodName) := by
  have hnone : ((Anchor.methodHead methodName).all d text.toList).find?
      (fun m => ch.start < m.start) = none := by
    rw [declaration?, hch] at h
    exact h
  rw [Anchor.first?_eq] at hch
  rw [Anchor.all_eq] at hnone
  unfold locate
  rw [anchorPattern_eq, anchorPattern_eq]
  simp only [bind, Except.bind, hch, hnone]
  rfl

theorem locate_of_declaration_behind {m : Match}
    (h : declaration? text className methodName d = some (m.behind x)) :
    locate text className methodName d =
      match firstIn? m.before (m.matched ++ m.after) with
      | some b => .ok (b.behind x)
      | none => .error (.bodyNotFound className methodName) := by
  have hbody : firstIn? (m.behind x).before ((m.behind x).matched ++ (m.behind x).after) =
      (firstIn? m.before (m.matched ++ m.after)).map (behind x) := firstIn?_append ..
  rw [locate_of_declaration h, hbody]
  cases firstIn? m.before (m.matched ++ m.after) with
  | none => rfl
  | some b => rfl

/-- What is written in front of the class moves all that is found by as many bytes, if no head runs into
it or begins in it, and none in front of it covers the beginning of another one behind. -/
theorem locate_insert_before {a s x c w r : List Char} (htext : text.toList = a ++ s)
    (hnew : patched.toList = a ++ (x ++ s))
    (hreads : ∀ p ∈ [chain ((Anchor.classHead className).parts d),
      chain ((Anchor.methodHead methodName).parts d)], p.isLocal = true ∧ p.Stops x ∧ p.Clear x s)
    (hover : (chain ((Anchor.methodHead methodName).parts d)).RunsClear a s)
    (hch : (Anchor.classHead className).first? d text.toList = some ⟨a ++ c, w, r⟩) :
    (locate patched className methodName d).map span =
      (locate text className methodName d).map fun b => b.span.shift (byteLength x) := by
  obtain ⟨⟨hlocal, hstops, hclear⟩, ⟨-, hstops', hclear'⟩, -⟩ := by
    simpa only [List.forall_mem_cons] using hreads
  have hch' : (Anchor.classHead className).first? d patched.toList =
      some ⟨a ++ (x ++ c), w, r⟩ := by
    rw [Anchor.first?_eq, htext] at hch
    rw [Anchor.first?_eq, hnew]
    exact find?_insert_before hlocal hstops hclear hch
  -- what is listed behind the beginning of the class is listed behind the place of insertion
  have hfront : ∀ b c', a = b ++ c' → c' ≠ [] →
      decide (byteLength (a ++ c) < byteLength b) = false ∧
        decide (byteLength (a ++ (x ++ c)) < byteLength b) = false := by
    rintro b c' rfl -
    simp only [decide_eq_false_iff_not, byteLength_append]
    omega
  have hsame : ∀ before, decide (byteLength (a ++ (x ++ c)) < byteLength (a ++ (x ++ before))) =
      decide (byteLength (a ++ c) < byteLength (a ++ before)) := by
    intro before
    simp only [byteLength_append, decide_eq_decide]
    omega
  obtain ⟨found, hfound, hfound'⟩ := firstWhere_insert_before hstops' hclear' hover hfront hsame
  rw [← htext] at hfound
  rw [← hnew] at hfound'
  have hdeclared := (declaration?_of_class hch).trans hfound
  have hdeclared' := (declaration?_of_class hch').trans hfound'
  cases found with
  | none => rw [locate_of_no_declaration hch hdeclared, locate_of_no_declaration hch' hdeclared']; rfl
  | some m =>
    rw [locate_of_declaration_behind hdeclared, locate_of_declaration_behind hdeclared']
    cases hbody : firstIn? m.before (m.matched ++ m.after) with
    | none => rfl
    | some b =>
      show Except.ok (b.behind (a ++ x)).span =
        Except.ok ((b.behind a).span.shift (byteLength x))
      rw [span_behind hbody, span_behind hbody, byteLength_append]
      simp only [Span.shift, Nat.add_assoc]

/-- Where the package declaration stands in front of the class, an import leaves all that is found where
it was, behind the bytes that were written. -/
theorem locate_of_addImport
    (h : addImport text Registration.managerImport d = .ok (.applied patched))
    (hpk : Anchor.package.first? d text.toList = some pk)
    (hch : (Anchor.classHead Layout.applicationClass).first? d text.toList = some ch)
    (hle : pk.stop ≤ ch.start) :
    ∃ written, patched.toList = pk.before ++ pk.matched ++ written ++ pk.after ∧
      (locate patched Layout.applicationClass Linker.registerMethod d).map span =
        (locate text Layout.applicationClass Linker.registerMethod d).map fun b =>
          b.span.shift (byteLength written) := by
  obtain ⟨before, matched, s⟩ := pk
  obtain ⟨front, w, r⟩ := ch
  obtain ⟨-, m, hm, hpatched⟩ := Dialect.addImport_eq_applied h
  obtain rfl := Option.some.inj (((Anchor.first?_eq ..).symm.trans hpk).symm.trans hm)
  have hnew : patched.toList = before ++ matched ++ (Registration.importText d ++ s) := by
    rw [hpatched]
    simp [Registration.importText]
  refine ⟨Registration.importText d, by rw [hnew]; simp, ?_⟩
  obtain ⟨htext, hchosen, -⟩ := find?_eq_some_iff.1 hm
  rw [← List.append_assoc] at htext
  obtain ⟨htext', -, -⟩ := find?_eq_some_iff.1 ((Anchor.first?_eq ..).symm.trans hch)
  obtain ⟨c, rfl⟩ : before ++ matched <+: front := by
    refine prefix_of_byteLength_le ⟨s, htext.symm⟩ ⟨w ++ r, htext'.symm⟩ ?_
    rw [byteLength_append]
    exact hle
  have hclass : (chain ((Anchor.classHead Layout.applicationClass).parts d)).isLocal = true :=
    Dialect.isLocal_class d _
  have hmethod : (chain ((Anchor.methodHead Linker.registerMethod).parts d)).isLocal = true :=
    Dialect.isLocal_method d _
  obtain ⟨hstops, hclear⟩ := Registration.stops_import d (by decide) hclass
  obtain ⟨hstops', hclear'⟩ := Registration.stops_import d (by decide) hmethod
  refine locate_insert_before htext hnew ?_ ?_ hch
  · simp only [List.forall_mem_cons]
    exact ⟨⟨hclass, hstops, hclear s⟩, ⟨hmethod, hstops', hclear' s⟩, nofun⟩
  · exact Dialect.runsClear_package (by decide) (by decide) (takes_of_head? hchosen) before s

/-- A file in which a method head begins in the package declaration. -/
def overridePackage : String :=
  "package override fun onCreate()\nclass MainApplication:A()\x7boverride fun onCreate()\x7b\x7d\x7d"

theorem locate_of_addImport_under_head : ∃ patched pk ch written,
    addImport overridePackage Registration.managerImport .kotlin = .ok (.applied patched) ∧
      Anchor.package.first? .kotlin overridePackage.toList = some pk ∧
      (Anchor.classHead Layout.applicationClass).first? .kotlin overridePackage.toList = some ch ∧
      pk.stop ≤ ch.start ∧
      patched.toList = pk.before ++ pk.matched ++ written ++ pk.after ∧
      (locate patched Layout.applicationClass Linker.registerMethod .kotlin).map span =
        .ok ⟨81 + byteLength written, 82 + byteLength written⟩ := by
  have himport : addImport overridePackage Registration.managerImport .kotlin =
      .ok (.applied ("package override\n\nimport com.facebook.react.views.text.ReactFontManager" ++
        " fun onCreate()\nclass MainApplication:A()\x7boverride fun onCreate()\x7b\x7d\x7d")) := by
    decide +kernel
  have hpk : Anchor.package.first? .kotlin overridePackage.toList =
      some ⟨[], "package override".toList, overridePackage.toList.drop 16⟩ := by decide +kernel
  have hch : (Anchor.classHead Layout.applicationClass).first? .kotlin overridePackage.toList =
      some ⟨overridePackage.toList.take 32, "class MainApplication:A()\x7b".toList,
        overridePackage.toList.drop 58⟩ := by decide +kernel
  have hle : 16 ≤ byteLength (overridePackage.toList.take 32) := by decide +kernel
  obtain ⟨written, hwritten, hlocate⟩ := locate_of_addImport himport hpk hch hle
  refine ⟨_, _, _, written, himport, hpk, hch, hle, hwritten, hlocate.trans ?_⟩
  have hfound : (locate overridePackage Layout.applicationClass Linker.registerMethod .kotlin).map
      span = .ok ⟨81, 82⟩ := by decide +kernel
  cases hbody : locate overridePackage Layout.applicationClass Linker.registerMethod .kotlin with
  | error e => rw [hbody] at hfound; nomatch hfound
  | ok b =>
    rw [hbody] at hfound
    have hspan : b.span = ⟨81, 82⟩ := Except.ok.inj hfound
    show Except.ok (b.span.shift (byteLength written)) = _
    rw [hspan]
    rfl

end Body

end AndroidFonts
