/-
# `AndroidFonts.Proofs.Source.LineBreaks` — line breaks of the two kinds

A line break is a line feed, or a carriage return and a line feed.  The changes to a text guess which
kind it uses, or do not ask:

* `insert` takes the kind from the whole body, CR LF if the body holds one.  It looks for the end of
  the anchor's line with it, and writes a line break of this kind;
* `addImport` writes two line feeds;
* `removeLines` cuts at line feeds, so that a line keeps its carriage return and is dropped with it.

So in a body of both kinds a line that ends with a lone line feed is not seen to end, and the statement
goes behind a later line.  `place_behind_anchor` says when: exactly if the first line feed behind the
anchor is a lone one, and the body holds a CR LF.  And a text whose line breaks are all CR LF (`CrLf`)
keeps them when lines are removed, never when an import is written, and under a statement only if
the body shows its line breaks: it holds one, or ends with a carriage return (`crLf_run_iff`).
-/
import AndroidFonts.Proofs.Source.Importing
import AndroidFonts.Proofs.Source.Removal

namespace AndroidFonts

open Text

/-! ## Texts whose line breaks are CR LF -/

namespace Text

variable {p q s t w : List Char} {lines : List (List Char)}

/-- Whether every line feed of a text follows a carriage return. -/
def CrLf (s : List Char) : Prop :=
  ∀ p q, s = p ++ '\n' :: q → p.getLast? = some '\r'

theorem crLf_of_not_mem (h : '\n' ∉ s) : CrLf s := by
  rintro p q rfl
  exact absurd (List.mem_append_right p List.mem_cons_self) h

theorem not_crLf_feed_cons (q : List Char) : ¬ CrLf ('\n' :: q) := fun h => nomatch h [] q rfl

theorem CrLf.front (h : CrLf (s ++ t)) : CrLf s := by
  rintro p q rfl
  exact h p (q ++ t) (by simp)

/-- Line feeds are judged by what is in front of them, so a text may be cut wherever no line feed is
cut off from it. -/
theorem crLf_append_iff (ht : t.head? ≠ some '\n') : CrLf (s ++ t) ↔ CrLf s ∧ CrLf t := by
  constructor
  · refine fun h => ⟨h.front, ?_⟩
    rintro p q rfl
    have hlast := h (s ++ p) q (by simp)
    have hne : p ≠ [] := by
      rintro rfl
      exact ht rfl
    rwa [List.getLast?_append_of_ne_nil _ hne] at hlast
  · rintro ⟨hs, ht'⟩ p q h
    rcases List.append_eq_append_iff.1 h with ⟨r, rfl, hr⟩ | ⟨r, rfl, hr⟩
    · have hlast := ht' r q hr
      rw [List.getLast?_append, hlast]
      rfl
    · cases r with
      | nil => exact absurd (by rw [← List.nil_append t, ← hr]; rfl) ht
      | cons c r =>
        obtain ⟨rfl, -⟩ := List.cons.inj hr
        exact hs p r rfl

theorem crLf_append_feed_iff :
    CrLf (p ++ '\n' :: q) ↔ CrLf p ∧ p.getLast? = some '\r' ∧ CrLf q := by
  constructor
  · refine fun h => ⟨h.front, h p q rfl, ?_⟩
    rintro a b rfl
    have hlast := h (p ++ '\n' :: a) b (by simp)
    cases a with
    | nil =>
      rw [List.getLast?_concat] at hlast
      nomatch hlast
    | cons c a =>
      rwa [List.getLast?_append_of_ne_nil _ (List.cons_ne_nil _ _), List.getLast?_cons_cons]
        at hlast
  · rintro ⟨hp, hlast, hq⟩ a b h
    rcases List.append_eq_append_iff.1 h with ⟨r, rfl, hr⟩ | ⟨r, rfl, hr⟩
    · cases r with
      | nil => rwa [List.append_nil]
      | cons c r =>
        obtain ⟨rfl, hrest⟩ := List.cons.inj hr
        have hlast' := hq r b hrest
        rw [List.getLast?_append, List.getLast?_cons, hlast']
        rfl
    · cases r with
      | nil => rwa [List.append_nil] at hlast
      | cons c r =>
        obtain ⟨rfl, -⟩ := List.cons.inj hr
        exact hp a r rfl

/-- Lines that are joined with line feeds end with carriage returns, all but the last. -/
theorem crLf_intercalate_iff (h : ∀ line ∈ lines, '\n' ∉ line) :
    CrLf (['\n'].intercalate lines) ↔ ∀ line ∈ lines.dropLast, line.getLast? = some '\r' := by
  induction lines with
  | nil => exact iff_of_true (crLf_of_not_mem List.not_mem_nil) nofun
  | cons line lines ih =>
    have hline := h line List.mem_cons_self
    cases lines with
    | nil =>
      rw [List.intercalate_singleton]
      exact iff_of_true (crLf_of_not_mem hline) nofun
    | cons next lines =>
      rw [List.intercalate_cons_cons, List.append_assoc, List.singleton_append,
        crLf_append_feed_iff, List.dropLast_cons_cons, List.forall_mem_cons,
        ih fun l hl => h l (List.mem_cons_of_mem _ hl)]
      exact and_iff_right (crLf_of_not_mem hline)

theorem crLf_iff_lines (s : List Char) :
    CrLf s ↔ ∀ line ∈ (splitOn '\n' s).dropLast, line.getLast? = some '\r' := by
  rw [← crLf_intercalate_iff fun _ => not_mem_of_mem_splitOn, intercalate_splitOn]

instance (s : List Char) : Decidable (CrLf s) := decidable_of_iff _ (crLf_iff_lines s).symm

/-- A line that is written at a place of a text where no line feed follows ends the line before it with
CR LF exactly if the carriage return is there, or is written with it. -/
theorem crLf_inserted_iff (h : CrLf (s ++ t)) (ht : t.head? ≠ some '\n') (hw : '\n' ∉ w)
    (hline : '\n' ∉ q) :
    CrLf (s ++ w ++ '\n' :: (q ++ t)) ↔ (s ++ w).getLast? = some '\r' := by
  obtain ⟨hs, ht'⟩ := (crLf_append_iff ht).1 h
  have hhead : w.head? ≠ some '\n' := fun hc => hw (List.mem_of_head? hc)
  rw [crLf_append_feed_iff, crLf_append_iff hhead, crLf_append_iff ht]
  exact ⟨fun h => h.2.1,
    fun hlast => ⟨⟨hs, crLf_of_not_mem hw⟩, hlast, crLf_of_not_mem hline, ht'⟩⟩

/-- Whether a text has a line feed, and its first one does not follow a carriage return. -/
def LoneFeed (s : List Char) : Prop :=
  ∃ x y, s = x ++ '\n' :: y ∧ '\n' ∉ x ∧ x.getLast? ≠ some '\r'

end Text

/-! ## The line of an anchor -/

namespace Body

variable {b : Body} {d : Dialect} {text className methodName snippet patched : String}
  {afterLine : Option String} {anchor head tail : List Char}

/-- A statement goes behind the text that follows its anchor, up to the first line break of the kind
that the body has. -/
theorem insertionPoint_behind (h : b.insertionPoint (some anchor) = .ok (head, tail)) :
    ∃ p line, cut? anchor b.inside = some (p, line ++ tail) ∧ head = p ++ anchor ++ line ∧
      ¬ b.newline <:+: line ∧ (tail = [] ∨ ∃ rest, tail = b.newline ++ rest) := by
  have htail := (insertionPoint_eq_ok h).2
  unfold insertionPoint at h
  cases hcut : cut? anchor b.inside with
  | none =>
    simp only [hcut] at h
    nomatch h
  | some around =>
    obtain ⟨p, q⟩ := around
    simp only [hcut] at h
    cases hline : cut? b.newline q with
    | none =>
      simp only [hline] at h
      obtain ⟨rfl, rfl⟩ := Prod.mk.inj (Except.ok.inj h)
      refine ⟨p, q, by rw [List.append_nil], rfl, fun hin => ?_, htail⟩
      have hoccurs := occursIn_iff.2 hin
      rw [occursIn, hline] at hoccurs
      nomatch hoccurs
    | some around =>
      obtain ⟨line, rest⟩ := around
      simp only [hline] at h
      obtain ⟨rfl, rfl⟩ := Prod.mk.inj (Except.ok.inj h)
      have hne : b.newline ≠ [] := by
        rcases b.newline_cases with hkind | hkind
        · rw [hkind]
          nofun
        · rw [hkind]
          nofun
      refine ⟨p, line, ?_, rfl, not_infix_of_cut? hne hline, htail⟩
      rw [eq_append_of_cut? hline, List.append_assoc]

/-- A line feed is passed over on the way to the first line break exactly if the line break is CR LF
and the first line feed is a lone one. -/
theorem feed_mem_line_iff {line : List Char} (hline : ¬ b.newline <:+: line)
    (htail : tail = [] ∨ ∃ rest, tail = b.newline ++ rest) :
    '\n' ∈ line ↔ ['\r', '\n'] <:+: b.inside ∧ LoneFeed (line ++ tail) := by
  rcases b.newline_cases with hkind | hkind
  · rw [hkind, List.singleton_infix_iff] at hline
    exact iff_of_false hline fun h => newline_eq_feed_iff.1 hkind h.1
  · rw [and_iff_right (newline_eq_return_iff.1 hkind)]
    rw [hkind] at hline htail
    constructor
    · intro hfeed
      obtain ⟨x, y, rfl, hx⟩ := List.eq_append_cons_of_mem hfeed
      refine ⟨x, y ++ tail, by simp, hx, fun hlast => hline ?_⟩
      obtain ⟨x, rfl⟩ := List.getLast?_eq_some_iff.1 hlast
      exact ⟨x, y, by simp⟩
    · rintro ⟨x, y, hxy, hx, hlast⟩
      by_contra hfeed
      obtain ⟨v, rfl, hv⟩ := exists_append_of_not_mem hfeed hxy
      rcases htail with rfl | ⟨rest, rfl⟩
      · cases v with
        | nil => nomatch hv
        | cons c v => nomatch hv
      · have hvclear : '\n' ∉ v := fun hc => hx (List.mem_append_right _ hc)
        obtain ⟨rfl, -⟩ := append_cons_inj (p := ['\r']) (by decide) hvclear hv
        exact hlast List.getLast?_concat

/-- A statement with an anchor is written where the text is cut behind the first occurrence of the
anchor: at a line break, or at the brace that closes the body.  A line feed is passed over on the way
there exactly if the first one is a lone one, in a body that holds a CR LF. -/
theorem place_behind_anchor (h : locate text className methodName d = .ok b)
    (hanchor : anchorOf afterLine = some anchor)
    (hinsert : b.insert snippet afterLine = .ok (.applied patched)) :
    ∃ p line tail, cut? anchor b.inside = some (p, line ++ tail) ∧
      text.toList = b.before ++ p ++ anchor ++ line ++ (tail ++ b.after) ∧
      patched.toList = b.before ++ p ++ anchor ++ line ++ (b.newline ++ indent ++ snippet.toList) ++
        (tail ++ b.after) ∧
      (['\n'] <+: tail ∨ ['\r', '\n'] <+: tail ∨ tail = [] ∧ ['}'] <+: b.after) ∧
      ('\n' ∈ line ↔ ['\r', '\n'] <:+: b.inside ∧ LoneFeed (line ++ tail)) := by
  obtain ⟨htext, r, hafter⟩ := text_eq_of_locate h
  obtain ⟨head, tail, hpoint, hpatched⟩ := insert_eq_applied hinsert
  rw [hanchor] at hpoint
  obtain ⟨p, line, hcut, rfl, hline, htail⟩ := insertionPoint_behind hpoint
  refine ⟨p, line, tail, hcut, ?_, ?_, ?_, feed_mem_line_iff hline htail⟩
  · rw [htext, eq_append_of_cut? hcut]
    simp
  · rw [hpatched]
    simp
  · rcases htail with rfl | ⟨rest, rfl⟩
    · exact .inr (.inr ⟨rfl, r, hafter.symm⟩)
    · rcases b.newline_cases with hkind | hkind
      · exact .inl (hkind ▸ List.prefix_append _ _)
      · exact .inr (.inl (hkind ▸ List.prefix_append _ _))

/-- A method of two lines that end with CR LF. -/
def returnLines : String := "class A\x7bpublic void f()\x7b\r\n  a();\r\n  b();\r\n\x7d\x7d"

def returnBody : Body where
  before := "class A\x7bpublic void f()\x7b".toList
  inside := "\r\n  a();\r\n  b();\r\n".toList
  after := "\x7d\x7d".toList

theorem locate_returnLines : locate returnLines "A" "f" .java = .ok returnBody := by
  decide +kernel

theorem place_behind_anchor_return : ∃ b p line tail,
    locate returnLines "A" "f" .java = .ok b ∧
      cut? "a();".toList b.inside = some (p, line ++ tail) ∧ '\n' ∉ line ∧
      (['\n'] <+: tail ∨ ['\r', '\n'] <+: tail ∨ tail = [] ∧ ['}'] <+: b.after) := by
  have hanchor : anchorOf (some "a();") = some "a();".toList := by decide +kernel
  have hinsert : returnBody.insert "x();" (some "a();") = .ok (.applied
      "class A\x7bpublic void f()\x7b\r\n  a();\r\n    x();\r\n  b();\r\n\x7d\x7d") := by
    decide +kernel
  obtain ⟨p, line, tail, hcut, -, -, hplace, hline⟩ :=
    place_behind_anchor locate_returnLines hanchor hinsert
  refine ⟨_, p, line, tail, locate_returnLines, hcut, hline.not.2 ?_, hplace⟩
  have hrest : cut? "a();".toList returnBody.inside =
      some ("\r\n  ".toList, "\r\n  b();\r\n".toList) := by decide +kernel
  obtain ⟨-, hrest⟩ := Prod.mk.inj (Option.some.inj (hrest.symm.trans hcut))
  rintro ⟨-, x, y, hxy, hx, hlast⟩
  obtain ⟨rfl, -⟩ := append_cons_inj (p := ['\r']) (q := "  b();\r\n".toList) (by decide) hx
    (Eq.trans (by decide) (hrest.trans hxy))
  exact hlast rfl

/-- A method of two lines, of which the second one ends with CR LF. -/
def mixedLines : String := "class A\x7bpublic void f()\x7b\n  a();\n  b();\r\n\x7d\x7d"

/-- In a body of both kinds a statement goes behind the line that follows its anchor's own. -/
theorem place_behind_next_line : ∃ b p line tail,
    locate mixedLines "A" "f" .java = .ok b ∧ anchorOf (some "a();") = some "a();".toList ∧
      cut? "a();".toList b.inside = some (p, line ++ tail) ∧
      b.insert "x();" (some "a();") = .ok (.applied (String.ofList
        (b.before ++ p ++ "a();".toList ++ line ++ "\r\n    x();".toList ++ (tail ++ b.after)))) ∧
      '\n' ∈ line :=
  ⟨⟨"class A\x7bpublic void f()\x7b".toList, "\n  a();\n  b();\r\n".toList, "\x7d\x7d".toList⟩,
    "\n  ".toList, "\n  b();".toList, "\r\n".toList, by decide +kernel⟩

/-! ## Statements in texts with CR LF -/

/-- In a text with CR LF a body holds a line feed only as a CR LF of its own. -/
theorem return_infix_of_feed {front : List Char} (htext : CrLf (b.before ++ b.inside ++ b.after))
    (hbefore : b.before = front ++ ['{']) (hfeed : '\n' ∈ b.inside) :
    ['\r', '\n'] <:+: b.inside := by
  obtain ⟨x, y, hinside⟩ := List.append_of_mem hfeed
  have hlast := htext (b.before ++ x) (y ++ b.after) (by simp [hinside])
  rcases List.eq_nil_or_concat' x with rfl | ⟨x, c, rfl⟩
  · rw [List.append_nil, hbefore, List.getLast?_concat] at hlast
    nomatch hlast
  · rw [← List.append_assoc, List.getLast?_concat] at hlast
    obtain rfl := Option.some.inj hlast
    exact ⟨x, y, by simp [hinside]⟩

theorem exists_of_insertInMethod {patch : TextPatch}
    (h : insertInMethod text className methodName snippet afterLine d = .ok patch) :
    ∃ b, locate text className methodName d = .ok b ∧ b.insert snippet afterLine = .ok patch := by
  unfold insertInMethod at h
  cases hlocate : locate text className methodName d with
  | error e =>
    rw [hlocate] at h
    nomatch h
  | ok b =>
    rw [hlocate] at h
    exact ⟨b, rfl, h⟩

/-- A statement keeps the line breaks of a text with CR LF exactly if its body shows them. -/
theorem crLf_inserted_statement_iff (h : locate text className methodName d = .ok b)
    (htext : CrLf text.toList) (hsnippet : '\n' ∉ snippet.toList)
    (hinsert : b.insert snippet afterLine = .ok (.applied patched)) :
    CrLf patched.toList ↔ '\n' ∈ b.inside ∨ b.inside.getLast? = some '\r' := by
  obtain ⟨hcut, r, hafter⟩ := text_eq_of_locate h
  obtain ⟨front, hbefore⟩ := before_of_locate h
  obtain ⟨head, tail, hpoint, hpatched⟩ := insert_eq_applied hinsert
  obtain ⟨hinside, htail⟩ := insertionPoint_eq_ok hpoint
  rw [hcut] at htext
  have hline : '\n' ∉ indent ++ snippet.toList := by
    rw [List.mem_append, not_or]
    exact ⟨by decide, hsnippet⟩
  -- the kind of line break is found exactly if there is one
  have hkind : '\n' ∈ b.inside ↔ b.newline = ['\r', '\n'] := by
    rw [newline_eq_return_iff]
    exact ⟨return_infix_of_feed htext hbefore, fun hin => hin.subset (by simp)⟩
  have hbrace : b.after.head? ≠ some '\n' := by
    rw [hafter]
    nofun
  rcases b.newline_cases with hfeed | hreturn
  · have hnone : '\n' ∉ b.inside := by
      rw [hkind, hfeed]
      nofun
    have hend : tail = [] := by
      refine htail.resolve_right ?_
      rintro ⟨rest, rfl⟩
      rw [hinside, hfeed] at hnone
      exact hnone (by simp)
    subst hend
    rw [List.append_nil] at hinside
    obtain rfl : head = b.inside := hinside.symm
    have hnew : patched.toList = b.before ++ b.inside ++ [] ++
        '\n' :: (indent ++ snippet.toList ++ b.after) := by
      rw [hpatched, hfeed]
      simp
    rw [hnew, crLf_inserted_iff htext hbrace List.not_mem_nil hline, List.append_nil,
      or_iff_right hnone]
    rcases List.eq_nil_or_concat' b.inside with hnil | ⟨x, c, hx⟩
    · rw [hnil, List.append_nil, hbefore, List.getLast?_concat]
      decide
    · rw [hx, ← List.append_assoc, List.getLast?_concat, List.getLast?_concat]
  · have hnew : patched.toList = b.before ++ head ++ ['\r'] ++
        '\n' :: (indent ++ snippet.toList ++ (tail ++ b.after)) := by
      rw [hpatched, hreturn]
      simp
    have hold : CrLf (b.before ++ head ++ (tail ++ b.after)) := by
      rw [hinside] at htext
      simpa only [List.append_assoc] using htext
    have hrest : (tail ++ b.after).head? ≠ some '\n' := by
      rcases htail with rfl | ⟨rest, rfl⟩
      · exact hbrace
      · rw [hreturn]
        nofun
    rw [hnew, crLf_inserted_iff hold hrest (by decide) hline]
    exact iff_of_true List.getLast?_concat (.inl (hkind.2 hreturn))

end Body

/-! ## Imports and lines -/

theorem not_crLf_addImport {d : Dialect} {text path patched : String}
    (h : addImport text path d = .ok (.applied patched)) : ¬ CrLf patched.toList := by
  obtain ⟨-, m, -, hpatched⟩ := Dialect.addImport_eq_applied h
  have hfeeds : patched.toList = m.before ++ m.matched ++
      '\n' :: '\n' :: ((d.importStatement path).toList ++ m.after) := by
    rw [hpatched]
    simp
  rw [hfeeds, crLf_append_feed_iff]
  exact fun hall => not_crLf_feed_cons _ hall.2.2

/-- Of some lines, only the last one that is kept may be the last one of all. -/
theorem mem_dropLast_of_filter {α : Type} {keep : α → Bool} {x : α} {xs : List α}
    (h : x ∈ (xs.filter keep).dropLast) : x ∈ xs.dropLast := by
  rcases List.eq_nil_or_concat' xs with rfl | ⟨xs, last, rfl⟩
  · exact h
  · rw [List.dropLast_concat]
    rw [List.filter_append] at h
    cases hlast : keep last with
    | true =>
      rw [List.filter_cons_of_pos hlast, List.filter_nil, List.dropLast_concat] at h
      exact List.mem_of_mem_filter h
    | false =>
      rw [List.filter_cons_of_neg (Bool.eq_false_iff.1 hlast), List.filter_nil,
        List.append_nil] at h
      exact List.mem_of_mem_filter (List.mem_of_mem_dropLast h)

theorem crLf_removeLines {text : String} (needle : String) (h : CrLf text.toList) :
    CrLf (removeLines text needle).1.toList := by
  rw [crLf_iff_lines] at h
  rw [removeLines_eq, String.toList_ofList,
    crLf_intercalate_iff fun _ hline => not_mem_of_mem_splitOn (List.mem_of_mem_filter hline)]
  exact fun line hline => h line (mem_dropLast_of_filter hline)

/-! ## Operations -/

namespace Operation

variable {d : Dialect} {text patched : String} {op : Operation}

/-- The texts that an operation brings with it. -/
def texts : Operation → List String
  | .insertStatement className methodName code afterLine =>
    [className, methodName, code] ++ afterLine.toList
  | .addImport path => [path]
  | .removeLines contains => [contains]

/-- Whether the line feeds that an operation writes follow carriage returns.  Those of an import never
do, and those of a statement only if its body holds a line break, or ends in half of one. -/
def WritesReturns (text : String) (d : Dialect) : Operation → Prop
  | .insertStatement className methodName _ _ =>
    ∃ b, Body.locate text className methodName d = .ok b ∧
      ('\n' ∈ b.inside ∨ b.inside.getLast? = some '\r')
  | .addImport _ => False
  | .removeLines _ => True

/-- A text whose line breaks are all CR LF is left so by an operation in one line exactly if that
writes line breaks of this kind. -/
theorem crLf_run_iff (htext : CrLf text.toList) (hop : ∀ s ∈ op.texts, '\n' ∉ s.toList)
    (hrun : op.run text d = .ok (.applied patched)) :
    CrLf patched.toList ↔ op.WritesReturns text d := by
  cases op with
  | insertStatement className methodName code afterLine =>
    obtain ⟨b, hlocate, hinsert⟩ := Body.exists_of_insertInMethod hrun
    rw [Body.crLf_inserted_statement_iff hlocate htext (hop code (by simp [texts])) hinsert]
    constructor
    · exact fun hbody => ⟨b, hlocate, hbody⟩
    · rintro ⟨b', hlocate', hbody⟩
      obtain rfl := Except.ok.inj (hlocate.symm.trans hlocate')
      exact hbody
  | addImport path => exact iff_of_false (not_crLf_addImport hrun) id
  | removeLines contains =>
    have hkept := crLf_removeLines contains htext
    rw [run_removeLines] at hrun
    split at hrun
    · cases hrun
    · rw [TextPatch.applied.inj (Except.ok.inj hrun)] at hkept
      exact iff_of_true hkept trivial

theorem crLf_run_of_returnLines : ∃ patched,
    (insertStatement "A" "f" "x();" (some "a();")).run Body.returnLines .java =
      .ok (.applied patched) ∧ CrLf patched.toList := by
  have htext : CrLf Body.returnLines.toList := by decide +kernel
  have hrun : (insertStatement "A" "f" "x();" (some "a();")).run Body.returnLines .java =
      .ok (.applied
        "class A\x7bpublic void f()\x7b\r\n  a();\r\n    x();\r\n  b();\r\n\x7d\x7d") := by
    decide +kernel
  exact ⟨_, hrun,
    (crLf_run_iff htext (by decide) hrun).2 ⟨_, Body.locate_returnLines, .inl (by decide)⟩⟩

/-- A class of three lines that end with CR LF, with a method on one of them. -/
def emptyBody : String := "class A\x7b\r\n  public void f()\x7b\x7d\r\n\x7d"

/-- An import brings lone line feeds into a text with CR LF, and a statement one into a body that has no
line break. -/
theorem crLf_lost :
    ('\n' ∈ "package a;\r\n".toList ∧ CrLf "package a;\r\n".toList ∧
      (∀ s ∈ (addImport "b.C").texts, '\n' ∉ s.toList) ∧
      (addImport "b.C").run "package a;\r\n" .java =
        .ok (.applied "package a;\n\nimport b.C;\r\n") ∧
      ¬ CrLf "package a;\n\nimport b.C;\r\n".toList) ∧
    ('\n' ∈ emptyBody.toList ∧ CrLf emptyBody.toList ∧
      (∀ s ∈ (insertStatement "A" "f" "x();" none).texts, '\n' ∉ s.toList) ∧
      (insertStatement "A" "f" "x();" none).run emptyBody .java =
        .ok (.applied "class A\x7b\r\n  public void f()\x7b\n    x();\x7d\r\n\x7d") ∧
      ¬ CrLf "class A\x7b\r\n  public void f()\x7b\n    x();\x7d\r\n\x7d".toList) := by
  decide +kernel

end Operation

end AndroidFonts
