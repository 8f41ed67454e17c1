/-
# `AndroidFonts.Proofs.Source.Names` — names stand for themselves

A template is written down with a hole for a name, and filling it in replaces the hole
(`fill_eq_replaceAll`); a name that looks like the hole is not replaced once more.  Whatever the name of
a class, of a method or of an import, the text that comes of it is a pattern, in which the name is
spelled out.  So no search fails for the sake of a name, and an import is
found exactly where it stands as plain text: the word, white space, the path, and what ends an import
in the dialect (`imports_iff`).
-/
import AndroidFonts.Proofs.Source.Importing

namespace AndroidFonts

open Text Pattern

/-! ## Templates -/

/-- What stands in a template for the name. -/
def nameHole : List Char := "\x7bname\x7d".toList

namespace PatternTemplate

/-- A template as it is written down. -/
def written (t : PatternTemplate) : List Char := t.before.toList ++ nameHole ++ t.after.toList

end PatternTemplate

theorem Text.replaceAll_go_of_cut? {needle s : List Char} (h : cut? needle s = none)
    (replacement : List Char) (n : Nat) : replaceAll.go needle replacement n s = s := by
  cases n with
  | zero => rfl
  | succ n =>
    rw [replaceAll.go, h]
    split <;> rfl

namespace Dialect

/-- The templates that names are written into. -/
def templates (d : Dialect) : List PatternTemplate :=
  [d.classTemplate, d.methodTemplate, d.importTemplate]

/-- Filling a template in replaces its hole, whatever the name is. -/
theorem fill_eq_replaceAll {d : Dialect} {t : PatternTemplate} (ht : t ∈ d.templates)
    (name : String) : (t.fill name).toList =
      replaceAll nameHole (Pattern.escape name.toList) t.written := by
  have hholes : ∀ d ∈ [Dialect.java, .kotlin], ∀ t ∈ d.templates,
      cut? nameHole t.written = some (t.before.toList, t.after.toList) ∧
        cut? nameHole t.after.toList = none := by
    decide +kernel
  obtain ⟨hhole, hrest⟩ := hholes d (by cases d <;> decide) t ht
  obtain ⟨n, hn⟩ : ∃ n, t.written.length = n + 1 := Nat.exists_eq_succ_of_ne_zero fun hnone => by
    simp [PatternTemplate.written, nameHole] at hnone
  have hne : nameHole ≠ [] := by decide
  rw [replaceAll, hn, replaceAll.go, if_neg hne, hhole]
  simp only [replaceAll_go_of_cut? hrest, PatternTemplate.fill, String.toList_append,
    String.toList_ofList]

/-! ## Imports -/

/-- Whether a text that follows the path of an import ends the import: with a semicolon, or with
nothing but white space up to a line feed or up to the end. -/
def EndsImport : Dialect → List Char → Prop
  | .java, rest => ∃ r, rest = ';' :: r
  | .kotlin, rest => BlankLine rest

/-- Whether a text holds an import of a path. -/
def Imports (d : Dialect) (path s : List Char) : Prop :=
  ∃ v g rest, s = v ++ ("import".toList ++ (g ++ (path ++ rest))) ∧ IsGap g ∧ d.EndsImport rest

/-- The pattern of an import occurs in the texts that hold the import. -/
theorem imports_iff (d : Dialect) (path s : List Char) :
    (chain (d.importParts.fill path)).occursIn s = true ↔ d.Imports path s := by
  rw [occursIn_iff_takes]
  cases d with
  | java =>
    constructor
    · rintro ⟨v, w, r, rfl, hw⟩
      obtain ⟨g, rfl, hg⟩ := takes_import_java.1 hw
      exact ⟨v, g, ';' :: r, by simp, hg, r, rfl⟩
    · rintro ⟨v, g, -, rfl, hg, r, rfl⟩
      exact ⟨v, _, r, by simp, takes_import_java.2 ⟨g, rfl, hg⟩⟩
  | kotlin =>
    constructor
    · rintro ⟨v, w, r, rfl, hw⟩
      obtain ⟨g, g', rfl, hg, hg', hr⟩ := takes_import_kotlin.1 hw
      exact ⟨v, g, g' ++ r, by simp, hg, g', r, rfl, hg', hr⟩
    · rintro ⟨v, g, -, rfl, hg, g', r, rfl, hg', hr⟩
      exact ⟨v, _, r, by simp, takes_import_kotlin.2 ⟨g, g', rfl, hg, hg', hr⟩⟩

end Dialect

/-! ## Errors -/

namespace Body

theorem locate_ne_invalidPattern (text className methodName pattern : String) (d : Dialect) :
    locate text className methodName d ≠ .error (.invalidPattern pattern) := by
  rw [locate_eq]
  split
  · nofun
  · split
    · nofun
    · split <;> nofun

/-- A statement cannot be written only if there is no line like the one it is to follow. -/
theorem insert_error {b : Body} {snippet : String} {afterLine : Option String} {e : PatchError}
    (h : b.insert snippet afterLine = .error e) : ∃ line, e = .anchorLineNotFound line := by
  unfold insert at h
  split at h
  · nomatch h
  · cases hanchor : anchorOf afterLine with
    | none =>
      rw [hanchor] at h
      nomatch h
    | some anchor =>
      rw [hanchor, insertionPoint] at h
      cases hcut : cut? anchor b.inside with
      | none =>
        rw [hcut] at h
        exact ⟨_, (Except.error.inj h).symm⟩
      | some parts =>
        obtain ⟨p, q⟩ := parts
        rw [hcut] at h
        cases hline : cut? b.newline q with
        | none =>
          simp only [hline] at h
          nomatch h
        | some parts =>
          simp only [hline] at h
          nomatch h

end Body

theorem insertInMethod_ne_invalidPattern (text className methodName snippet : String)
    (afterLine : Option String) (d : Dialect) (pattern : String) :
    insertInMethod text className methodName snippet afterLine d ≠
      .error (.invalidPattern pattern) := by
  intro h
  unfold insertInMethod at h
  cases hlocate : Body.locate text className methodName d with
  | error e =>
    rw [hlocate] at h
    obtain rfl : e = .invalidPattern pattern := Except.error.inj h
    exact Body.locate_ne_invalidPattern _ _ _ _ _ hlocate
  | ok b =>
    rw [hlocate] at h
    obtain ⟨line, hline⟩ := Body.insert_error h
    nomatch hline

theorem addImport_ne_invalidPattern (text path : String) (d : Dialect) (pattern : String) :
    addImport text path d ≠ .error (.invalidPattern pattern) := by
  rw [Dialect.addImport_eq]
  split
  · nofun
  · split <;> nofun

/-- An import is not written if and only if the text holds it. -/
theorem addImport_eq_alreadyApplied_iff (text path : String) (d : Dialect) :
    addImport text path d = .ok .alreadyApplied ↔ d.Imports path.toList text.toList := by
  rw [← Dialect.imports_iff, Dialect.addImport_eq]
  constructor
  · intro h
    split at h
    · assumption
    · split at h <;> nomatch h
  · intro h
    rw [if_pos h]

/-- No name can change a pattern: the filled template is read as its parts with the name spelled out
between them, no search fails for it, and an import is found where it stands word by word. -/
theorem names_are_literal (d : Dialect) :
    (∀ t ∈ d.templates, ∀ name : String, (t.fill name).toList =
      replaceAll nameHole (Pattern.escape name.toList) t.written) ∧
    (∀ a : Anchor, (Notation.read? (a.patternText d).toList).isSome ∧
      a.pattern? d = some (chain (a.parts d))) ∧
    (∀ text className methodName pattern,
      Body.locate text className methodName d ≠ .error (.invalidPattern pattern)) ∧
    (∀ text className methodName snippet afterLine pattern,
      insertInMethod text className methodName snippet afterLine d ≠
        .error (.invalidPattern pattern)) ∧
    (∀ text path pattern, addImport text path d ≠ .error (.invalidPattern pattern)) ∧
    ∀ text path p, (Anchor.importOf path).pattern? d = some p →
      (p.occursIn text.toList = true ↔ d.Imports path.toList text.toList) ∧
      (addImport text path d = .ok .alreadyApplied ↔ d.Imports path.toList text.toList) := by
  refine ⟨fun _ ht => Dialect.fill_eq_replaceAll ht, fun a => ⟨?_, a.pattern?_eq d⟩,
    fun _ _ _ _ => Body.locate_ne_invalidPattern _ _ _ _ d,
    fun _ _ _ _ _ _ => insertInMethod_ne_invalidPattern _ _ _ _ _ d _,
    fun _ _ _ => addImport_ne_invalidPattern _ _ d _, fun text path p hp => ?_⟩
  · have hpattern := a.pattern?_eq d
    rw [Anchor.pattern?, compile?] at hpattern
    obtain ⟨n, hn, -⟩ := Option.bind_eq_some_iff.1 hpattern
    exact Option.isSome_of_eq_some hn
  · obtain rfl := Option.some.inj ((Anchor.pattern?_eq d _).symm.trans hp)
    exact ⟨d.imports_iff _ _, addImport_eq_alreadyApplied_iff text path d⟩

/-- A path with a star, a point and the hole of the templates in it is looked for as it is. -/
theorem names_are_literal_hole :
    (Dialect.java.importTemplate.fill "a.*\x7bname\x7d").toList =
      replaceAll nameHole (Pattern.escape "a.*\x7bname\x7d".toList)
        Dialect.java.importTemplate.written ∧
    Dialect.java.Imports "a.*\x7bname\x7d".toList "import a.*\x7bname\x7d;".toList ∧
    ¬ Dialect.java.Imports "a.*\x7bname\x7d".toList "import a.bname;".toList := by
  have hheld : addImport "import a.*\x7bname\x7d;" "a.*\x7bname\x7d" .java = .ok .alreadyApplied := by
    decide +kernel
  have hmissing : addImport "import a.bname;" "a.*\x7bname\x7d" .java ≠ .ok .alreadyApplied := by
    decide +kernel
  obtain ⟨hfill, hread, -, -, -, himport⟩ := names_are_literal .java
  have hpattern := (hread (.importOf "a.*\x7bname\x7d")).2
  exact ⟨hfill _ (by decide) _, (himport _ _ _ hpattern).2.1 hheld,
    mt (himport _ _ _ hpattern).2.2 hmissing⟩

end AndroidFonts
