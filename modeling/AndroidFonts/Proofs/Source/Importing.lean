/-
# `AndroidFonts.Proofs.Source.Importing` — an import that was written is found again

An import is written right behind the package declaration, and what stood there comes to stand behind
the import, on its line.  Where an import ends with a semicolon that does no harm.  Where it ends with
its line it is found again if nothing but white space is left of that line, and only then: the package
pattern stops in front of a semicolon or of a comment, and the import that is written in front of it is
none that the pattern takes.

`addImport_again` says both.  The second half is an argument about every place where an import could
be found in the new text.  None of them is in front of the import that was written or behind it, since
it would have been one before (`blankLine_of_occursIn_written`).
-/
import AndroidFonts.Proofs.Pattern.Insertion
import AndroidFonts.Proofs.Source.Heads
import AndroidFonts.Source.Patch

namespace AndroidFonts

open Text

/-! ## Searching -/

namespace Pattern

variable {p : Pattern} {ps qs : List Pattern} {set : CharSet} {s r : List Char}

/-- A pattern occurs where it takes up something. -/
theorem occursIn_iff_takes :
    p.occursIn s = true ↔ ∃ v w r, s = v ++ (w ++ r) ∧ Takes p w r := by
  rw [occursIn_iff]
  constructor
  · rintro ⟨v, u, rfl, hu⟩
    obtain ⟨r, hr⟩ := List.exists_mem_of_ne_nil _ hu
    obtain ⟨w, rfl, hw⟩ := mem_ends_iff.1 hr
    exact ⟨v, w, r, rfl, hw⟩
  · rintro ⟨v, w, r, rfl, hw⟩
    exact ⟨v, w ++ r, rfl, List.ne_nil_of_mem (mem_ends_iff.2 ⟨w, rfl, hw⟩)⟩

theorem ends_chain_append (ps qs : List Pattern) (s : List Char) :
    (chain (ps ++ qs)).ends s = ((chain ps).ends s).flatMap (chain qs).ends := by
  induction ps generalizing s with
  | nil => exact (List.flatMap_singleton ..).symm
  | cons p ps ih =>
    show (p.ends s).flatMap (chain (ps ++ qs)).ends =
      ((p.ends s).flatMap (chain ps).ends).flatMap (chain qs).ends
    rw [List.flatMap_assoc]
    exact List.flatMap_congr fun t _ => ih t

/-- The preferred run of characters of a set goes on as long as there are such characters. -/
theorem has_of_head?_ends_many1 (h : ((many1 set).ends s).head? = some r) :
    ∀ c, r.head? = some c → set.has c = false := by
  have hstops : ∀ {s r}, (stops set s).reverse.head? = some r →
      ∀ c, r.head? = some c → set.has c = false := by
    intro s
    induction s with
    | nil =>
      intro r hr c hc
      obtain rfl := Option.some.inj hr
      cases hc
    | cons d s ih =>
      intro r hr
      rw [stops] at hr
      split at hr
      · obtain ⟨t, rest, hstops⟩ : ∃ t rest, (stops set s).reverse = t :: rest := by
          refine List.exists_cons_of_ne_nil fun hnil => ?_
          rw [List.reverse_eq_nil_iff] at hnil
          cases s with
          | nil => cases hnil
          | cons _ _ => cases hnil
        rw [List.reverse_cons, hstops] at hr
        rw [← Option.some.inj hr]
        exact ih (by rw [hstops]; rfl)
      · rename_i hd
        intro c hc
        obtain rfl := Option.some.inj hr
        obtain rfl := Option.some.inj hc
        exact Bool.eq_false_iff.2 hd
  cases s with
  | nil => cases h
  | cons d s =>
    change (((Pattern.one set).ends (d :: s)).flatMap (Pattern.many set).ends).head? = _ at h
    rw [ends] at h
    split at h
    · rw [List.flatMap_singleton, ends] at h
      exact hstops h
    · cases h

/-- A match that ends with a run of characters of a set ends where there are no more of them. -/
theorem has_of_head?_ends_chain (h : ((chain (ps ++ [many1 set])).ends s).head? = some r) :
    ∀ c, r.head? = some c → set.has c = false := by
  rw [ends_chain_append, List.head?_flatMap] at h
  obtain ⟨t, -, ht⟩ := List.exists_of_findSome?_eq_some h
  change (((many1 set).ends t).flatMap fun r => [r]).head? = some r at ht
  rw [List.flatMap_singleton'] at ht
  exact has_of_head?_ends_many1 ht

end Pattern

open Pattern

namespace Dialect

variable {path s v w r front rest g n : List Char}

/-- Whether nothing but white space is left of a line. -/
def BlankLine (rest : List Char) : Prop := ∃ g r, rest = g ++ r ∧ Blanks g ∧ AtLineEnd r

theorem not_blankLine {c : Char} {t : List Char} (hg : '\n' ∉ g) (hc : Unicode.isBlank c = false) :
    ¬ BlankLine (g ++ c :: t) := by
  rintro ⟨g', r, hsplit, hg', hr⟩
  have hcg' : c ∉ g' := fun hmem => by
    rw [hg' c hmem] at hc
    nomatch hc
  obtain ⟨a, rfl, hend⟩ := exists_append_of_not_mem hcg' hsplit.symm
  rcases hr with rfl | ⟨u, rfl⟩
  · nomatch (List.append_eq_nil_iff.1 hend.symm).2
  · cases a with
    | nil =>
      rw [← (List.cons.inj hend).1, Unicode.isBlank_feed] at hc
      nomatch hc
    | cons d a =>
      obtain rfl := (List.cons.inj hend).1
      exact hg (List.mem_append_right _ List.mem_cons_self)

/-- Whether the pattern of an import reads a path as it stands: the path is a word, and the import
does not begin at its end. -/
structure PlainPath (path : List Char) : Prop where
  word : IsWord path
  last : ¬ "import".toList <:+ path

theorem isWord_import : IsWord "import".toList := by decide

theorem isBlank_of_blanks_append {c : Char} (hg : Blanks g) (hr : AtLineEnd r)
    (h : g ++ r = c :: s) : Unicode.isBlank c = true := by
  cases g with
  | nil =>
    rcases hr with rfl | ⟨t, rfl⟩
    · nomatch h
    · obtain ⟨rfl, -⟩ := List.cons.inj h
      exact Unicode.isBlank_feed
  | cons d g =>
    obtain ⟨rfl, -⟩ := List.cons.inj h
    exact hg d List.mem_cons_self

theorem PlainPath.ne_import (hpath : PlainPath path) (hg : Blanks g) (hr : AtLineEnd r) (t : List Char) :
    path ++ (g ++ r) ≠ "import".toList ++ ' ' :: t := by
  intro h
  have hspace : Unicode.isBlank ' ' = true :=
    (Unicode.isBlank_eq_isListedBlank _).trans (by decide)
  obtain ⟨a, ha, hrest⟩ := exists_append_of_not_mem (hpath.word.not_mem hspace) h
  cases a with
  | nil => exact hpath.last ⟨[], by rw [ha, List.append_nil]; rfl⟩
  | cons d a =>
    have hd : d ∈ "import".toList := ha ▸ List.mem_append_right _ List.mem_cons_self
    exact isWord_import.not_mem (isBlank_of_blanks_append hg hr hrest) hd

/-- Behind the place where an import was written no import begins that was not there before, unless
nothing but white space is left of its line. -/
theorem occursIn_of_written_behind {v g' : List Char} (hpath : PlainPath path)
    (hrest : ∀ c, rest.head? = some c → packageSet.has c = false) (hblank : ¬ BlankLine rest)
    (hg : IsGap g) (hg' : Blanks g') (hr : AtLineEnd r)
    (h : "import ".toList ++ (path ++ rest) = v ++ ("import".toList ++ (g ++ (path ++ g')) ++ r)) :
    (chain (Dialect.kotlin.importParts.fill path)).occursIn rest = true := by
  cases v with
  | nil =>
    -- the import that was written
    have hword : "import".toList ++ ([' '] ++ (path ++ rest)) =
        "import".toList ++ (g ++ (path ++ (g' ++ r))) := by
      rw [List.nil_append] at h
      show "import ".toList ++ (path ++ rest) = _
      simpa only [List.append_assoc] using h
    have hcut := List.append_cancel_left hword
    have hblanks : Blanks [' '] := by decide
    obtain ⟨-, hsame⟩ := blanks_append_inj hblanks hg.2 hpath.word hpath.word hcut
    exact absurd ⟨g', r, List.append_cancel_left hsame, hg', hr⟩ hblank
  | cons d v =>
    have hcut : "mport ".toList ++ (path ++ rest) =
        v ++ 'i' :: ("mport".toList ++ (g ++ (path ++ g')) ++ r) := (List.cons.inj h).2
    obtain ⟨v, -, hcut⟩ := exists_append_of_not_mem (by decide) hcut
    rcases List.append_eq_append_iff.1 hcut with ⟨v, -, hrest'⟩ | ⟨tail, htail, hcut⟩
    · exact occursIn_iff_takes.2 ⟨v, _, r, hrest', takes_import_kotlin.2 ⟨g, g', rfl, hg, hg', hr⟩⟩
    · -- the end of the path would be the beginning of an import
      have hcut : "import".toList ++ (g ++ (path ++ (g' ++ r))) = tail ++ rest := by
        rw [← hcut]
        simp
      rcases List.append_eq_append_iff.1 hcut with ⟨k, rfl, hk⟩ | ⟨k, hk, hrest'⟩
      · cases k with
        | nil => exact absurd ⟨v, by rw [htail, List.append_nil]⟩ hpath.last
        | cons d k =>
          have hd : IsWord (d :: k) := ⟨List.cons_ne_nil _ _, fun c hc => hpath.word.2 c
            (htail ▸ List.mem_append_right _ (List.mem_append_right _ hc))⟩
          exact absurd hk (hg.append_ne_word hd)
      · cases k with
        | nil => exact absurd ⟨v, by rw [htail, hk, List.append_nil]⟩ hpath.last
        | cons d k =>
          have hletter : d ∈ "import".toList := hk ▸ List.mem_append_right _ List.mem_cons_self
          have hword : ∀ c ∈ "import".toList, packageSet.has c = true :=
            List.all_eq_true.1 (by decide)
          have hnone := hrest d (by rw [hrest']; rfl)
          rw [hword d hletter] at hnone
          nomatch hnone

/-- A package declaration at the end of a text does not end as an import does. -/
theorem package_ne_import {before gap v : List Char} (hgap : IsGap gap) (hn : IsWord n) (hg : IsGap g)
    (hpath : IsWord path) :
    before ++ ("package".toList ++ (gap ++ n)) ≠ v ++ ("import".toList ++ (g ++ path)) := by
  intro h
  have hfront := two_words_inj (by decide) hgap hn.2 isWord_import hg hpath h
  have hletter := congrArg List.getLast? hfront
  rw [List.getLast?_append_of_ne_nil _ (by decide), List.getLast?_append_of_ne_nil _ (by decide)]
    at hletter
  exact absurd hletter (by decide)

/-- In front of the place where an import was written no import begins that was not there before. -/
theorem occursIn_of_written_front {before gap v g' t : List Char} (hpath : PlainPath path)
    (hg : IsGap g) (hg' : Blanks g') (hr : AtLineEnd r) (hgap : IsGap gap) (hn : IsWord n)
    (hfront : before ++ ("package".toList ++ (gap ++ n)) = v ++ ("import".toList ++ w))
    (h : g ++ (path ++ (g' ++ r)) = w ++ '\n' :: '\n' :: ("import".toList ++ ' ' :: t)) :
    (chain (Dialect.kotlin.importParts.fill path)).occursIn
      (before ++ ("package".toList ++ (gap ++ n)) ++ rest) = true := by
  rcases List.append_eq_append_iff.1 h with ⟨k, rfl, hk⟩ | ⟨k, rfl, hk⟩
  · obtain ⟨k, rfl, hend⟩ := exists_append_of_not_mem (hpath.word.not_mem Unicode.isBlank_feed) hk
    -- a package declaration ends in a word, so more than white space follows the path
    have hmore : ¬ Blanks k := by
      intro hblanks
      rcases List.eq_nil_or_concat' k with rfl | ⟨k, c, rfl⟩
      · rw [List.append_nil] at hfront
        exact package_ne_import hgap hn hg hpath.word hfront
      · have hlast := congrArg List.getLast? hfront
        simp only [← List.append_assoc] at hlast
        rw [List.getLast?_append_of_ne_nil _ hn.1, List.getLast?_concat] at hlast
        exact hn.not_mem (hblanks c (by simp)) (List.mem_of_getLast? hlast)
    rcases List.append_eq_append_iff.1 hend with ⟨l, rfl, hl⟩ | ⟨l, rfl, -⟩
    · cases l with
      | nil => exact absurd (by rwa [List.append_nil]) hmore
      | cons d l =>
        have hr' : AtLineEnd (d :: l ++ rest) := by
          rcases hr with rfl | ⟨t, rfl⟩
          · nomatch hl
          · exact .inr ⟨l ++ rest, by rw [← (List.cons.inj hl).1]; rfl⟩
        refine occursIn_iff_takes.2 ⟨v, _, d :: l ++ rest, ?_,
          takes_import_kotlin.2 ⟨g, g', rfl, hg, hg', hr'⟩⟩
        rw [hfront]
        simp
    · exact absurd (fun c hc => hg' c (List.mem_append_left _ hc)) hmore
  · have hfeeds : Blanks ['\n', '\n'] := by decide
    have hblanks : Blanks k := fun c hc => hg.2 c (List.mem_append_right _ hc)
    obtain ⟨-, hsame⟩ := blanks_append_inj hfeeds hblanks isWord_import hpath.word hk
    exact absurd hsame.symm (hpath.ne_import hg' hr t)

/-- An import that was written into a text without one is found there only if nothing but white space
is left of its line. -/
theorem blankLine_of_occursIn_written {before gap : List Char} (hpath : PlainPath path)
    (hgap : IsGap gap) (hn : IsWord n)
    (hrest : ∀ c, rest.head? = some c → packageSet.has c = false)
    (hnone : (chain (Dialect.kotlin.importParts.fill path)).occursIn
      (before ++ ("package".toList ++ (gap ++ n)) ++ rest) = false)
    (h : (chain (Dialect.kotlin.importParts.fill path)).occursIn
      (before ++ ("package".toList ++ (gap ++ n)) ++
        '\n' :: '\n' :: ("import ".toList ++ (path ++ rest))) = true) : BlankLine rest := by
  by_contra hblank
  refine Bool.false_ne_true (hnone.symm.trans ?_)
  obtain ⟨v, w, r, htext, hw⟩ := occursIn_iff_takes.1 h
  obtain ⟨g, g', rfl, hg, hg', hr⟩ := takes_import_kotlin.1 hw
  rcases List.append_eq_append_iff.1 htext with ⟨l, rfl, hl⟩ | ⟨l, hl, htail⟩
  · have hfeeds : ∃ l', l = '\n' :: '\n' :: l' ∧ "import ".toList ++ (path ++ rest) =
        l' ++ ("import".toList ++ (g ++ (path ++ g')) ++ r) := by
      rcases l with _ | ⟨c, _ | ⟨c', l⟩⟩
      · nomatch (List.cons.inj hl).1
      · nomatch (List.cons.inj (List.cons.inj hl).2).1
      · obtain ⟨rfl, hfeed⟩ := List.cons.inj hl
        obtain ⟨rfl, hcut⟩ := List.cons.inj hfeed
        exact ⟨l, rfl, hcut⟩
    obtain ⟨l, rfl, hbehind⟩ := hfeeds
    exact occursIn_append_left _ (occursIn_of_written_behind hpath hrest hblank hg hg' hr hbehind)
  · have hcut : "import".toList ++ (g ++ (path ++ (g' ++ r))) =
        l ++ '\n' :: '\n' :: ("import ".toList ++ (path ++ rest)) := by
      rw [← htail]
      simp
    obtain ⟨w, rfl, hinside⟩ := exists_append_of_not_mem (by decide) hcut
    exact occursIn_of_written_front hpath hg hg' hr hgap hn hl hinside

/-! ## Imports that are written -/

variable {d : Dialect} {text path patched : String} {m : Match}

theorem addImport_eq (text path : String) (d : Dialect) : addImport text path d =
    if (chain (d.importParts.fill path.toList)).occursIn text.toList then .ok .alreadyApplied
    else match (chain d.packageParts).find? text.toList with
      | none => .error (.importAnchorMissing path)
      | some m => .ok (.applied (String.ofList (m.before ++ m.matched ++ ['\n', '\n'] ++
          (d.importStatement path).toList ++ m.after))) := by
  have himport : Body.anchorPattern d (.importOf path) =
      .ok (chain (d.importParts.fill path.toList)) := Body.anchorPattern_eq d _
  have hpackage : Body.anchorPattern d .package = .ok (chain d.packageParts) :=
    Body.anchorPattern_eq d _
  unfold addImport
  rw [himport, hpackage]
  simp only [bind, Except.bind]
  split
  · rfl
  · cases (chain d.packageParts).find? text.toList with
    | none => rfl
    | some m => rfl

theorem addImport_eq_applied (h : addImport text path d = .ok (.applied patched)) :
    (chain (d.importParts.fill path.toList)).occursIn text.toList = false ∧
      ∃ m, (chain d.packageParts).find? text.toList = some m ∧
        patched.toList = m.before ++ m.matched ++ ['\n', '\n'] ++
          (d.importStatement path).toList ++ m.after := by
  rw [addImport_eq] at h
  split at h
  · nomatch h
  · rename_i hnone
    cases hm : (chain d.packageParts).find? text.toList with
    | none =>
      rw [hm] at h
      nomatch h
    | some m =>
      rw [hm] at h
      refine ⟨Bool.eq_false_iff.2 hnone, m, rfl, ?_⟩
      rw [← TextPatch.applied.inj (Except.ok.inj h), String.toList_ofList]

theorem addImport_of_occursIn
    (h : (chain (d.importParts.fill path.toList)).occursIn text.toList = true) :
    addImport text path d = .ok .alreadyApplied := by
  rw [addImport_eq, if_pos h]

/-- The package declaration that an import is written behind, with what follows it. -/
theorem package_of_find? {s : List Char} (h : (chain Dialect.kotlin.packageParts).find? s = some m) :
    s = m.before ++ (m.matched ++ m.after) ∧ (∃ g n, m.matched = "package".toList ++ (g ++ n) ∧
      IsGap g ∧ n ≠ [] ∧ ∀ c ∈ n, packageSet.has c = true) ∧
      ∀ c, m.after.head? = some c → packageSet.has c = false := by
  obtain ⟨b, w, r⟩ := m
  obtain ⟨hs, hr, -⟩ := find?_eq_some_iff.1 h
  obtain ⟨w', hw, htakes⟩ := mem_ends_iff.1 (List.mem_of_mem_head? hr)
  obtain rfl := List.append_cancel_right hw
  have hparts : Dialect.kotlin.packageParts =
      spelled "package".toList ++ [gap] ++ [many1 packageSet] := rfl
  exact ⟨hs, takes_package_kotlin.1 htakes, has_of_head?_ends_chain (hparts ▸ hr)⟩

/-- An import that was written is found again where imports end with a semicolon, and where nothing
but white space is left of its line; elsewhere it is written once more. -/
theorem addImport_again (h : addImport text path d = .ok (.applied patched)) :
    ∃ m, Anchor.package.first? d text.toList = some m ∧
      (d = .java ∨ BlankLine m.after → addImport patched path d = .ok .alreadyApplied) ∧
      (d = .kotlin → PlainPath path.toList → ¬ BlankLine m.after →
        ∃ again, addImport patched path d = .ok (.applied again)) := by
  obtain ⟨hnone, m, hm, hpatched⟩ := addImport_eq_applied h
  refine ⟨m, (Anchor.first?_eq ..).trans hm, fun hline => ?_, ?_⟩
  · refine addImport_of_occursIn (occursIn_iff_takes.2 ?_)
    rw [hpatched, importStatement]
    have hgap : IsGap [' '] := by decide
    cases d with
    | java =>
      refine ⟨m.before ++ m.matched ++ ['\n', '\n'], _, m.after, ?_,
        takes_import_java.2 ⟨[' '], rfl, hgap⟩⟩
      simp [terminator]
    | kotlin =>
      obtain ⟨g, r, hafter, hg, hr⟩ := hline.resolve_left nofun
      refine ⟨m.before ++ m.matched ++ ['\n', '\n'], _, r, ?_,
        takes_import_kotlin.2 ⟨[' '], g, rfl, hgap, hg, hr⟩⟩
      rw [hafter]
      simp [terminator]
  · rintro rfl hpath hblank
    obtain ⟨htext, ⟨g, n, hmatched, hg, hn, hset⟩, hrest⟩ := package_of_find? hm
    have hfront : patched.toList = m.before ++ ("package".toList ++ (g ++ n)) ++
        '\n' :: '\n' :: ("import ".toList ++ (path.toList ++ m.after)) := by
      rw [hpatched, hmatched, importStatement]
      simp [terminator]
    have habsent : (chain (Dialect.kotlin.importParts.fill path.toList)).occursIn patched.toList =
        false := by
      refine Bool.eq_false_iff.2 fun hin => hblank ?_
      rw [htext, ← List.append_assoc, hmatched] at hnone
      rw [hfront] at hin
      exact blankLine_of_occursIn_written hpath hg (isWord_of_packageSet hn hset) hrest hnone hin
    obtain ⟨m', hm'⟩ : ∃ m', (chain Dialect.kotlin.packageParts).find? patched.toList = some m' := by
      refine Option.isSome_iff_exists.1 (occursIn_iff_takes.2 ?_)
      exact ⟨m.before, _, _, by rw [hfront, List.append_assoc],
        takes_package_kotlin.2 ⟨g, n, rfl, hg, hn, hset⟩⟩
    rw [addImport_eq, habsent, hm']
    exact ⟨_, rfl⟩

theorem addImport_again_of_line :
    (∃ patched, addImport "package a \nclass A" "b.C" .kotlin = .ok (.applied patched) ∧
      addImport patched "b.C" .kotlin = .ok .alreadyApplied) ∧
    ∃ patched again, addImport "package a /* a */\n" "b.C" .kotlin = .ok (.applied patched) ∧
      addImport patched "b.C" .kotlin = .ok (.applied again) := by
  have hblank : addImport "package a \nclass A" "b.C" .kotlin =
      .ok (.applied "package a\n\nimport b.C \nclass A") := by decide +kernel
  have hcomment : addImport "package a /* a */\n" "b.C" .kotlin =
      .ok (.applied "package a\n\nimport b.C /* a */\n") := by decide +kernel
  constructor
  · refine ⟨_, hblank, ?_⟩
    obtain ⟨m, hm, hagain, -⟩ := addImport_again hblank
    obtain rfl : ⟨[], "package a".toList, " \nclass A".toList⟩ = m :=
      Option.some.inj (Eq.trans (by decide +kernel) hm)
    exact hagain (.inr ⟨[' '], "\nclass A".toList, rfl, by decide, .inr ⟨_, rfl⟩⟩)
  · obtain ⟨m, hm, -, hwritten⟩ := addImport_again hcomment
    obtain rfl : ⟨[], "package a".toList, " /* a */\n".toList⟩ = m :=
      Option.some.inj (Eq.trans (by decide +kernel) hm)
    have hpath : PlainPath "b.C".toList := ⟨by decide, by decide⟩
    have hline : ¬ BlankLine " /* a */\n".toList :=
      not_blankLine (g := [' ']) (c := '/') (by decide)
        ((Unicode.isBlank_eq_isListedBlank _).trans (by decide))
    obtain ⟨again, hagain⟩ := hwritten rfl hpath hline
    exact ⟨_, again, hcomment, hagain⟩

/-- A semicolon behind the package declaration comes to stand behind the import, and every further run
writes the import once more. -/
theorem addImport_of_semicolon :
    addImport "package a;\n" "b.C" .kotlin = .ok (.applied "package a\n\nimport b.C;\n") ∧
    addImport "package a\n\nimport b.C;\n" "b.C" .kotlin =
      .ok (.applied "package a\n\nimport b.C\n\nimport b.C;\n") := by
  decide +kernel

end Dialect

end AndroidFonts
