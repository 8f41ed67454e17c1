/-
# `AndroidFonts.Proofs.Source.Removal` — a registration that is taken out again

A statement is written into a body, but it is taken out by dropping lines, which are lines of the
whole text and end at line feeds.  Where the statement was written at the end of a line of the body
it has a line of its own, and dropping that line gives the text back, character for character.  Where
the line of the anchor does not end in the body, the statement was written in front of the closing
brace of the body and shares its line, and that brace is dropped with it.

`undone_registration` says both: whether the text comes back is decided by whether the line on which
the anchor first stands ends in the body (`Body.EndsLine`).
-/
import AndroidFonts.Proofs.Source.Registration
import AndroidFonts.Proofs.Tree.Spelling

namespace AndroidFonts

open Text

/-! ## Lines -/

namespace Text

variable {needle s p q line : List Char} {lines : List (List Char)} {sep c : Char}

theorem splitOn_append_cons (sep : Char) (p q : List Char) :
    splitOn sep (p ++ sep :: q) = splitOn sep p ++ splitOn sep q := by
  rw [splitOn_eq_listSplitOn, splitOn_eq_listSplitOn, splitOn_eq_listSplitOn,
    List.splitOn_append_cons_self]

theorem splitOn_of_not_mem (h : sep ∉ s) : splitOn sep s = [s] := by
  rw [splitOn_eq_listSplitOn, List.splitOn_eq_singleton h]

theorem infix_intercalate (sep : Char) (h : line ∈ lines) : line <:+: [sep].intercalate lines := by
  induction lines with
  | nil => nomatch h
  | cons first lines ih =>
    cases lines with
    | nil =>
      rw [List.mem_singleton.1 h, List.intercalate_singleton]
    | cons next lines =>
      rw [List.intercalate_cons_cons]
      rcases List.mem_cons.1 h with rfl | h
      · rw [List.append_assoc]
        exact (List.prefix_append _ _).isInfix
      · exact (ih h).trans (List.suffix_append _ _).isInfix

/-- A text without line feeds occurs in a text exactly if it occurs in one of its lines. -/
theorem infix_iff_exists_line (h : '\n' ∉ needle) :
    needle <:+: s ↔ ∃ line ∈ splitOn '\n' s, needle <:+: line := by
  constructor
  · intro hs
    induction hn : s.length using Nat.strongRecOn generalizing s with
    | ind n ih =>
      by_cases hfeed : '\n' ∈ s
      · obtain ⟨p, q, rfl⟩ := List.append_of_mem hfeed
        rw [List.length_append, List.length_cons] at hn
        rw [splitOn_append_cons]
        rcases infix_of_infix_append_cons h hs with hp | hq
        · obtain ⟨line, hline, hin⟩ := ih p.length (by omega) hp rfl
          exact ⟨line, List.mem_append_left _ hline, hin⟩
        · obtain ⟨line, hline, hin⟩ := ih q.length (by omega) (infix_of_infix_cons h hq) rfl
          exact ⟨line, List.mem_append_right _ hline, hin⟩
      · exact ⟨s, by rw [splitOn_of_not_mem hfeed]; exact List.mem_cons_self, hs⟩
  · rintro ⟨line, hline, hin⟩
    have hs := infix_intercalate '\n' hline
    rw [intercalate_splitOn] at hs
    exact hin.trans hs

end Text

/-! ## Dropping lines -/

section

variable {needle p q line : List Char}

/-- The lines that are kept are those that do not hold the text. -/
theorem removeLines_eq (text needle : String) : removeLines text needle =
    (String.ofList (['\n'].intercalate
      ((splitOn '\n' text.toList).filter fun line => !occursIn needle.toList line)),
      ((splitOn '\n' text.toList).filter (occursIn needle.toList)).length) := by
  unfold removeLines
  rw [List.partition_eq_filter_filter]
  rfl

/-- Lines are removed exactly if a line holds the text. -/
theorem run_removeLines (text needle : String) (d : Dialect) :
    (Operation.removeLines needle).run text d =
      if (removeLines text needle).2 = 0 then .ok .alreadyApplied
      else .ok (.applied (removeLines text needle).1) := by
  rw [Operation.run]
  cases removeLines text needle with
  | mk kept dropped => cases dropped <;> rfl

theorem occursIn_eq_false_of_mem_splitOn (hneedle : '\n' ∉ needle) (h : ¬ needle <:+: p)
    (hline : line ∈ splitOn '\n' p) : occursIn needle line = false :=
  Bool.eq_false_iff.2 fun hin =>
    h ((infix_iff_exists_line hneedle).2 ⟨line, hline, occursIn_iff.1 hin⟩)

/-- Where one line holds a text and nothing else does, that line is dropped with the line feed in
front of it. -/
theorem run_removeLines_of_line {needle : String} (d : Dialect) (hneedle : '\n' ∉ needle.toList)
    (hline : '\n' ∉ line) (hin : needle.toList <:+: line)
    (hq : q = [] ∨ ∃ r, q = '\n' :: r) (hrest : ¬ needle.toList <:+: p ++ q) :
    (Operation.removeLines needle).run (String.ofList (p ++ '\n' :: (line ++ q))) d =
      .ok (.applied (String.ofList (p ++ q))) := by
  -- the lines around it are those of the text without it
  obtain ⟨around, hnew, hold⟩ : ∃ around,
      splitOn '\n' (p ++ '\n' :: (line ++ q)) = splitOn '\n' p ++ line :: around ∧
        splitOn '\n' (p ++ q) = splitOn '\n' p ++ around := by
    rcases hq with rfl | ⟨r, rfl⟩
    · refine ⟨[], ?_, by rw [List.append_nil, List.append_nil]⟩
      rw [List.append_nil, splitOn_append_cons, splitOn_of_not_mem hline]
    · refine ⟨splitOn '\n' r, ?_, splitOn_append_cons '\n' p r⟩
      rw [splitOn_append_cons, splitOn_append_cons, splitOn_of_not_mem hline]
      rfl
  have hclean : ∀ x ∈ splitOn '\n' p ++ around, occursIn needle.toList x = false := fun x hx =>
    occursIn_eq_false_of_mem_splitOn hneedle hrest (hold ▸ hx)
  have hhit : occursIn needle.toList line = true := occursIn_iff.2 hin
  have hfilter : ∀ xs : List (List Char), (∀ x ∈ xs, x ∈ splitOn '\n' p ++ around) →
      xs.filter (fun x => !occursIn needle.toList x) = xs ∧
        xs.filter (occursIn needle.toList) = [] := by
    intro xs hxs
    refine ⟨List.filter_eq_self.2 fun x hx => ?_, List.filter_eq_nil_iff.2 fun x hx => ?_⟩
    · rw [hclean x (hxs x hx)]
      rfl
    · simp [hclean x (hxs x hx)]
  obtain ⟨hkeep, hdrop⟩ := hfilter (splitOn '\n' p) fun x hx => List.mem_append_left _ hx
  obtain ⟨hkeep', hdrop'⟩ := hfilter around fun x hx => List.mem_append_right _ hx
  have hremove : removeLines (String.ofList (p ++ '\n' :: (line ++ q))) needle =
      (String.ofList (p ++ q), 1) := by
    rw [removeLines_eq, String.toList_ofList, hnew, List.filter_append, List.filter_append,
      List.filter_cons_of_pos hhit, List.filter_cons_of_neg (by simp [hhit]), hkeep, hkeep',
      hdrop, hdrop', ← hold, intercalate_splitOn]
    rfl
  rw [run_removeLines, hremove]
  rfl

end

/-! ## Registrations -/

namespace Body

variable {b : Body} {d : Dialect} {text className methodName : String}

/-- Whether the line on which a text first stands in a body ends in the body. -/
def EndsLine (b : Body) (anchor : List Char) : Prop :=
  ∃ p q, cut? anchor b.inside = some (p, q) ∧ occursIn b.newline q = true

/-- A statement goes to the end of the line of its anchor, or to the end of the body if that line
does not end there. -/
theorem insertionPoint_some {anchor head tail : List Char}
    (h : b.insertionPoint (some anchor) = .ok (head, tail)) :
    (b.EndsLine anchor ∧ ∃ rest, tail = b.newline ++ rest) ∨ (¬ b.EndsLine anchor ∧ tail = []) := by
  unfold insertionPoint at h
  cases hcut : cut? anchor b.inside with
  | none =>
    simp only [hcut] at h
    nomatch h
  | some around =>
    obtain ⟨p, q⟩ := around
    simp only [hcut] at h
    cases hline : cut? b.newline q with
    | none =>
      simp only [hline] at h
      obtain ⟨-, rfl⟩ := Prod.mk.inj (Except.ok.inj h)
      refine .inr ⟨?_, rfl⟩
      rintro ⟨p', q', hcut', hends⟩
      rw [hcut] at hcut'
      obtain ⟨-, rfl⟩ := Prod.mk.inj (Option.some.inj hcut')
      unfold occursIn at hends
      rw [hline] at hends
      nomatch hends
    | some around =>
      obtain ⟨line, rest⟩ := around
      simp only [hline] at h
      obtain ⟨-, rfl⟩ := Prod.mk.inj (Except.ok.inj h)
      refine .inl ⟨⟨p, q, hcut, ?_⟩, rest, rfl⟩
      unfold occursIn
      rw [hline]
      rfl

section

variable {needle : String} {head tail snippet : List Char}

/-- A statement at the end of a line of a body is a line of the text, and dropping that line leaves
the text as it was. -/
theorem removeLines_inserted (d : Dialect) (hneedle : '\n' ∉ needle.toList)
    (hsnippet : '\n' ∉ snippet) (hin : needle.toList <:+: snippet)
    (htail : ∃ rest, tail = b.newline ++ rest)
    (hnone : ¬ needle.toList <:+: b.before ++ (head ++ tail) ++ b.after) :
    (Operation.removeLines needle).run (String.ofList
      (b.before ++ (head ++ (b.newline ++ indent ++ snippet) ++ tail ++ b.after))) d =
        .ok (.applied (String.ofList (b.before ++ (head ++ tail) ++ b.after))) := by
  obtain ⟨cr, hnewline, hcr⟩ := b.newline_eq
  obtain ⟨rest, rfl⟩ := htail
  have hline : '\n' ∉ indent ++ snippet ++ cr := by
    simp only [List.mem_append, not_or]
    refine ⟨⟨by decide, hsnippet⟩, ?_⟩
    rcases hcr with rfl | rfl <;> decide
  have hin' : needle.toList <:+: indent ++ snippet ++ cr :=
    hin.trans ((List.suffix_append _ _).isInfix.trans (List.prefix_append _ _).isInfix)
  have hold : b.before ++ (head ++ (b.newline ++ rest)) ++ b.after =
      b.before ++ head ++ cr ++ '\n' :: (rest ++ b.after) := by
    rw [hnewline]
    simp
  have hnew : b.before ++ (head ++ (b.newline ++ indent ++ snippet) ++ (b.newline ++ rest) ++
      b.after) = b.before ++ head ++ cr ++ '\n' :: (indent ++ snippet ++ cr ++
        '\n' :: (rest ++ b.after)) := by
    rw [hnewline]
    simp
  rw [hold] at hnone ⊢
  rw [hnew]
  exact run_removeLines_of_line d hneedle hline hin' (.inr ⟨_, rfl⟩) hnone

/-- A statement at the end of a body stands on one line with the brace that closes the body, and is
dropped with it. -/
theorem removeLines_inserted_at_end (d : Dialect) (hneedle : '\n' ∉ needle.toList)
    (hreturn : needle.toList.getLast? ≠ some '\r')
    (hsnippet : '\n' ∉ snippet) (hin : needle.toList <:+: snippet) {r : List Char}
    (hafter : b.after = '}' :: r) (hnone : ¬ needle.toList <:+: b.before ++ head ++ b.after) :
    ∃ restored, (Operation.removeLines needle).run (String.ofList
      (b.before ++ (head ++ (b.newline ++ indent ++ snippet) ++ b.after))) d =
        .ok (.applied restored) ∧
      restored.toList.count '}' < (b.before ++ head ++ b.after).count '}' := by
  obtain ⟨cr, hnewline, hcr⟩ := b.newline_eq
  obtain ⟨w, q, hwq, hw, hq⟩ : ∃ w q, b.after = w ++ q ∧ '\n' ∉ w ∧ (q = [] ∨ ∃ r, q = '\n' :: r) := by
    by_cases hfeed : '\n' ∈ b.after
    · obtain ⟨w, r, hwr, hw⟩ := List.eq_append_cons_of_mem hfeed
      exact ⟨w, '\n' :: r, hwr, hw, .inr ⟨r, rfl⟩⟩
    · exact ⟨b.after, [], (List.append_nil _).symm, hfeed, .inl rfl⟩
  have hbrace : 0 < w.count '}' := by
    rw [List.count_pos_iff]
    cases w with
    | nil =>
      rcases hq with rfl | ⟨r', rfl⟩
      · nomatch hwq.symm.trans hafter
      · nomatch hwq.symm.trans hafter
    | cons c w => exact (List.cons.inj (hwq.symm.trans hafter)).1 ▸ List.mem_cons_self
  have hline : '\n' ∉ indent ++ snippet ++ w := by
    simp only [List.mem_append, not_or]
    exact ⟨⟨by decide, hsnippet⟩, hw⟩
  have hin' : needle.toList <:+: indent ++ snippet ++ w :=
    hin.trans ((List.suffix_append _ _).isInfix.trans (List.prefix_append _ _).isInfix)
  have hrest : ¬ needle.toList <:+: b.before ++ head ++ cr ++ q := by
    intro hbad
    have hparts : needle.toList <:+: b.before ++ head ++ cr ∨ needle.toList <:+: q := by
      rcases hq with rfl | ⟨r', rfl⟩
      · exact .inl (by rwa [List.append_nil] at hbad)
      · exact infix_of_infix_append_cons hneedle hbad
    rcases hparts with hfront | hback
    · exact hnone ((infix_of_infix_append_last hreturn hcr hfront).trans
        (List.prefix_append _ _).isInfix)
    · refine hnone (hback.trans ?_)
      rw [hwq, ← List.append_assoc]
      exact (List.suffix_append _ _).isInfix
  have hnew : b.before ++ (head ++ (b.newline ++ indent ++ snippet) ++ b.after) =
      b.before ++ head ++ cr ++ '\n' :: (indent ++ snippet ++ w ++ q) := by
    rw [hnewline, hwq]
    simp
  rw [hnew]
  refine ⟨_, run_removeLines_of_line d hneedle hline hin' hq hrest, ?_⟩
  have hcr' : cr.count '}' = 0 := by
    rcases hcr with rfl | rfl <;> rfl
  rw [String.toList_ofList, hwq]
  simp only [List.count_append, hcr']
  omega

end

end Body

namespace Registration

variable {family resourceId : String} {d : Dialect} {f : FontFamily}

/-- What the linker does to the application class for one family. -/
def insertion (f : FontFamily) (d : Dialect) : Operation :=
  .insertStatement Layout.applicationClass Linker.registerMethod
    (call f.family f.resourceId d) (some ("super." ++ Linker.registerMethod ++ "()"))

/-- What takes the registration of a family out again. -/
def removal (family : String) : Operation := .removeLines (needle family)

theorem operation_registrations (d : Dialect) (file : Path) (f : FontFamily) :
    (Linker.registrations d file ("super." ++ Linker.registerMethod ++ "()") [f]).map
      (·.operation) = [insertion f d] := rfl

/-- A registration that was written is dropped again with its line.  The text comes back exactly if
the line on which the call of the superclass first stands ends in the body; otherwise the brace that
closes the body goes with the line. -/
theorem undone_registration {text patched : String} (hname : '\n' ∉ f.family.toList)
    (hnone : ∀ line ∈ splitOn '\n' text.toList, occursIn (needle f.family).toList line = false)
    (h : (insertion f d).run text d = .ok (.applied patched)) :
    ∃ b restored, Body.locate text Layout.applicationClass Linker.registerMethod d = .ok b ∧
      (removal f.family).run patched d = .ok (.applied restored) ∧
      (b.EndsLine "super.onCreate()".toList → restored = text) ∧
      (¬ b.EndsLine "super.onCreate()".toList →
        restored.toList.count '}' < text.toList.count '}') := by
  obtain ⟨b, hb, hinsert⟩ : ∃ b, Body.locate text Layout.applicationClass Linker.registerMethod d =
      .ok b ∧ b.insert (call f.family f.resourceId d) (some "super.onCreate()") =
        .ok (.applied patched) := by
    change insertInMethod text _ _ _ _ d = _ at h
    unfold insertInMethod at h
    cases hlocate : Body.locate text Layout.applicationClass Linker.registerMethod d with
    | error e =>
      rw [hlocate] at h
      nomatch h
    | ok b =>
      rw [hlocate] at h
      exact ⟨b, rfl, h⟩
  obtain ⟨head, tail, hpoint, hpatched⟩ := Body.insert_eq_applied hinsert
  have hanchor : Body.anchorOf (some "super.onCreate()") = some "super.onCreate()".toList := by
    cbv
  rw [hanchor] at hpoint
  obtain ⟨hinside, -⟩ := Body.insertionPoint_eq_ok hpoint
  obtain ⟨htext, r, hafter⟩ := Body.text_eq_of_locate hb
  rw [hinside] at htext
  have hneedle := feed_not_mem_needle hname
  have habsent : ¬ (needle f.family).toList <:+: text.toList := by
    rw [infix_iff_exists_line hneedle]
    rintro ⟨line, hline, hin⟩
    exact Bool.false_ne_true ((hnone line hline).symm.trans (occursIn_iff.2 hin))
  rw [htext] at habsent
  have hcall := feed_not_mem_call hname d
  have hin := needle_infix_call f.family f.resourceId d
  obtain rfl : patched = String.ofList _ := String.ext (hpatched.trans String.toList_ofList.symm)
  rcases Body.insertionPoint_some hpoint with ⟨hends, htail⟩ | ⟨hends, rfl⟩
  · refine ⟨b, text, hb, ?_, fun _ => rfl, fun h => absurd hends h⟩
    have hrun := Body.removeLines_inserted d hneedle hcall hin htail habsent
    rw [← htext, String.ofList_toList] at hrun
    exact hrun
  · rw [List.append_nil] at htext habsent
    obtain ⟨restored, hrun, hcount⟩ := Body.removeLines_inserted_at_end d hneedle
      (getLast?_needle f.family) hcall hin hafter habsent
    refine ⟨b, restored, hb, ?_, fun h => absurd h hends, fun _ => htext ▸ hcount⟩
    rw [List.append_nil]
    exact hrun

/-- A class whose method has one statement, on a line of its own, in a text with carriage returns. -/
def classInLines : String :=
  "class MainApplication\x7bpublic void onCreate()\x7b\r\n  super.onCreate();\r\n\x7d\x7d"

/-- The same class on one line. -/
def classOnOneLine : String :=
  "class MainApplication\x7bpublic void onCreate()\x7b super.onCreate(); \x7d\x7d"

def lato : FontFamily := ⟨"Lato", none, []⟩

theorem exists_of_any {ε α : Type} {x : Except ε α} {p : α → Bool}
    (h : x.toOption.any p = true) : ∃ a, x = .ok a ∧ p a = true := by
  cases x with
  | error e => nomatch h
  | ok a => exact ⟨a, rfl, h⟩

theorem undone_registration_in_lines : ∃ patched,
    (insertion lato .java).run classInLines .java = .ok (.applied patched) ∧
      (removal "Lato").run patched .java = .ok (.applied classInLines) := by
  have hcheck : (Body.locate classInLines Layout.applicationClass Linker.registerMethod
      .java).toOption.any (fun b =>
        (b.insert (call "Lato" (FontFamily.resourceId lato) .java)
          (some ("super." ++ Linker.registerMethod ++ "()"))).toOption.any (· ≠ .alreadyApplied) &&
        (cut? "super.onCreate()".toList b.inside).any fun around => occursIn b.newline around.2) =
          true := by
    decide +kernel
  obtain ⟨b, hb, hcheck⟩ := exists_of_any hcheck
  obtain ⟨hinsert, hends⟩ := (Bool.and_eq_true _ _).mp hcheck
  obtain ⟨patch, hinsert, hne⟩ := exists_of_any hinsert
  obtain ⟨⟨p, q⟩, hcut, hq⟩ := (Option.any_eq_true _ _).1 hends
  obtain ⟨patched, rfl⟩ : ∃ patched, patch = .applied patched := by
    cases patch with
    | applied patched => exact ⟨patched, rfl⟩
    | alreadyApplied => cases hne
  have hrun : (insertion lato .java).run classInLines .java = .ok (.applied patched) := by
    change insertInMethod _ _ _ _ _ _ = _
    rw [insertInMethod, hb]
    exact hinsert
  obtain ⟨b', restored, hb', hremove, hback, -⟩ := undone_registration (f := lato) (by decide)
    (by decide +kernel) hrun
  obtain rfl : b = b' := Except.ok.inj (hb.symm.trans hb')
  exact ⟨patched, hrun, hback ⟨p, q, hcut, hq⟩ ▸ hremove⟩

/-- On one line the braces of the method and of the class are lost. -/
theorem removal_of_one_line : ∃ patched,
    (∀ line ∈ splitOn '\n' classOnOneLine.toList, occursIn (needle "Lato").toList line = false) ∧
    (insertion lato .java).run classOnOneLine .java = .ok (.applied patched) ∧
    (removal "Lato").run patched .java = .ok (.applied
      "class MainApplication\x7bpublic void onCreate()\x7b super.onCreate(); ") := by
  refine ⟨"class MainApplication\x7bpublic void onCreate()\x7b super.onCreate(); \n    " ++
    "ReactFontManager.getInstance().addCustomFont(this, \"Lato\", R.font.lato);\x7d\x7d", ?_, ?_, ?_⟩
  · decide +kernel
  · decide +kernel
  · decide +kernel

end Registration

end AndroidFonts
