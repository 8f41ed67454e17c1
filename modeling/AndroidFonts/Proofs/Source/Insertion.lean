/-
# `AndroidFonts.Proofs.Source.Insertion` — a statement that was inserted is found again

A body is found by two heads, of a class and of a method, and by counting braces.  Where both heads
end in front of the brace of the body (`Body.Located`), a balanced text that is written into the
body changes nothing about how it is found, provided that no match of a head can run into the text:
the body of the new text is the old one with the text in it (`Located.insert`).

A statement goes to the end of a line or of the body, so it breaks no text that stands in one line
(`infix_of_inserted`).
-/
import AndroidFonts.Proofs.Pattern.Insertion
import AndroidFonts.Proofs.Source.Braces
import AndroidFonts.Proofs.Text.Search
import AndroidFonts.Source.Patch

namespace AndroidFonts

open Text

namespace Body

variable {b : Body} {cp mp : Pattern} {s x h t : List Char} {ch mh : Match} {d : Dialect}
  {text className methodName : String}

/-! ## How a body is found -/

theorem firstIn?_eq_some_iff {front rest : List Char} : firstIn? front rest = some b ↔
    ∃ head, '{' ∉ head ∧ b.before = front ++ head ++ ['{'] ∧
      rest = head ++ '{' :: (b.inside ++ b.after) ∧
      splitAtClose? 0 (b.inside ++ b.after) = some (b.inside, b.after) := by
  unfold firstIn?
  constructor
  · intro h
    cases hcut : cut? ['{'] rest with
    | none =>
      rw [hcut] at h
      nomatch h
    | some parts =>
      obtain ⟨head, tail⟩ := parts
      rw [hcut] at h
      obtain ⟨rfl, hhead⟩ := cut?_singleton_iff.1 hcut
      cases hsplit : splitAtClose? 0 tail with
      | none =>
        simp only [bind, Option.bind, hsplit] at h
        nomatch h
      | some parts =>
        obtain ⟨inside, after⟩ := parts
        simp only [bind, Option.bind, hsplit] at h
        obtain rfl := Option.some.inj h
        obtain ⟨rfl, -⟩ := splitAtClose?_eq_some_iff.1 hsplit
        exact ⟨head, hhead, rfl, rfl, hsplit⟩
  · rintro ⟨head, hhead, hbefore, rfl, hsplit⟩
    rw [cut?_singleton hhead]
    simp only [bind, Option.bind, hsplit]
    rw [← hbefore]
    rfl

/-- A body with the heads it is found by, both of which end in front of its brace. -/
structure Located (cp mp : Pattern) (s : List Char) (b : Body) (ch mh : Match) : Prop where
  classHead : cp.find? s = some ch
  methodHead : (mp.findAll s).find? (fun m => ch.start < m.start) = some mh
  body : firstIn? mh.before (mh.matched ++ mh.after) = some b
  class_clear : ch.before ++ ch.matched <+: b.before
  method_clear : mh.before ++ mh.matched <+: b.before

theorem locate_of_located (hcp : anchorPattern d (.classHead className) = .ok cp)
    (hmp : anchorPattern d (.methodHead methodName) = .ok mp)
    (h : Located cp mp text.toList b ch mh) : locate text className methodName d = .ok b := by
  unfold locate
  rw [hcp]
  simp only [bind, Except.bind, h.classHead, hmp, h.methodHead, h.body]
  rfl

/-- What a body that is found is found by. -/
theorem locate_eq_ok (h : locate text className methodName d = .ok b) : ∃ cp mp ch mh,
    anchorPattern d (.classHead className) = .ok cp ∧ cp.find? text.toList = some ch ∧
      anchorPattern d (.methodHead methodName) = .ok mp ∧
      (mp.findAll text.toList).find? (fun m => ch.start < m.start) = some mh ∧
      firstIn? mh.before (mh.matched ++ mh.after) = some b := by
  unfold locate at h
  cases hcp : anchorPattern d (.classHead className) with
  | error e =>
    rw [hcp] at h
    nomatch h
  | ok cp =>
    cases hch : cp.find? text.toList with
    | none =>
      simp only [bind, Except.bind, hcp, hch] at h
      nomatch h
    | some ch =>
      cases hmp : anchorPattern d (.methodHead methodName) with
      | error e =>
        simp only [bind, Except.bind, hcp, hch, hmp] at h
        nomatch h
      | ok mp =>
        cases hmh : (mp.findAll text.toList).find? (fun m => ch.start < m.start) with
        | none =>
          simp only [bind, Except.bind, hcp, hch, hmp, hmh] at h
          nomatch h
        | some mh =>
          cases hbody : firstIn? mh.before (mh.matched ++ mh.after) with
          | none =>
            simp only [bind, Except.bind, hcp, hch, hmp, hmh, hbody] at h
            nomatch h
          | some b' =>
            simp only [bind, Except.bind, hcp, hch, hmp, hmh, hbody] at h
            obtain rfl := Except.ok.inj h
            exact ⟨cp, mp, ch, mh, rfl, hch, rfl, hmh, hbody⟩

theorem text_eq_of_firstIn? {front rest : List Char} (h : firstIn? front rest = some b) :
    b.before ++ (b.inside ++ b.after) = front ++ rest := by
  obtain ⟨head, -, hbefore, rfl, -⟩ := firstIn?_eq_some_iff.1 h
  rw [hbefore]
  simp

theorem Located.text_eq (hb : Located cp mp s b ch mh) :
    b.before ++ (b.inside ++ b.after) = s := by
  rw [text_eq_of_firstIn? hb.body]
  have hmh := Pattern.text_of_mem_findFrom (List.mem_of_find?_eq_some hb.methodHead)
  rw [← hmh, Match.text, List.append_assoc]

/-- A body that is found cuts the text, and ends at a closing brace. -/
theorem text_eq_of_locate (h : locate text className methodName d = .ok b) :
    text.toList = b.before ++ b.inside ++ b.after ∧ ∃ r, b.after = '}' :: r := by
  obtain ⟨cp, mp, ch, mh, -, -, -, hmh, hbody⟩ := locate_eq_ok h
  have htext := Pattern.text_of_mem_findFrom (List.mem_of_find?_eq_some hmh)
  obtain ⟨head, -, -, -, hsplit⟩ := firstIn?_eq_some_iff.1 hbody
  refine ⟨?_, (splitAtClose?_eq_some_iff.1 hsplit).2.2⟩
  rw [List.append_assoc, text_eq_of_firstIn? hbody, ← List.append_assoc]
  exact htext.symm

/-- A body begins behind a brace. -/
theorem before_of_locate (h : locate text className methodName d = .ok b) :
    ∃ front, b.before = front ++ ['{'] := by
  obtain ⟨-, -, -, mh, -, -, -, -, hbody⟩ := locate_eq_ok h
  obtain ⟨head, -, hbefore, -⟩ := firstIn?_eq_some_iff.1 hbody
  exact ⟨mh.before ++ head, hbefore⟩

/-- What follows a match that ends in front of a body, up to some place in the body. -/
theorem exists_gap {m : Match} {before rest : List Char} (htext : m.text = before ++ (h ++ rest))
    (hm : m.before ++ m.matched <+: before) :
    ∃ a, before = m.before ++ m.matched ++ a ∧ m = ⟨m.before, m.matched, a ++ h ++ rest⟩ := by
  obtain ⟨b, w, r⟩ := m
  obtain ⟨a, rfl⟩ := hm
  refine ⟨a, rfl, ?_⟩
  have hr : b ++ w ++ r = b ++ w ++ (a ++ h ++ rest) := by
    rw [Match.text] at htext
    rw [htext]
    simp
  rw [List.append_cancel_left hr]

/-- A balanced text that no head can run into is written into a body: the body is found again, with
the text in it. -/
theorem Located.insert (hcp : cp.isLocal = true) (hcx : cp.Stops x) (hmp : mp.isLocal = true)
    (hmx : mp.Stops x) (hx : Balanced x) (hinside : b.inside = h ++ t)
    (hb : Located cp mp s b ch mh) :
    ∃ ch' mh', Located cp mp (b.before ++ (h ++ x ++ t ++ b.after))
      ⟨b.before, h ++ x ++ t, b.after⟩ ch' mh' := by
  have htext : b.before ++ (h ++ (t ++ b.after)) = s := by
    rw [← hb.text_eq, hinside, List.append_assoc]
  have hnew : ∀ {w a}, b.before = w ++ a → b.before ++ (h ++ x ++ t ++ b.after) =
      w ++ (a ++ h) ++ (x ++ (t ++ b.after)) := by
    intro w a hw
    rw [hw]
    simp
  have hold : ∀ {w a}, b.before = w ++ a → s = w ++ (a ++ h) ++ (t ++ b.after) := by
    intro w a hw
    rw [← htext, hw]
    simp
  obtain ⟨a, ha, hch⟩ := exists_gap ((Pattern.text_of_find? hb.classHead).trans htext.symm)
    hb.class_clear
  obtain ⟨a', ha', hmh⟩ := exists_gap ((Pattern.text_of_mem_findFrom
    (List.mem_of_find?_eq_some hb.methodHead)).trans htext.symm) hb.method_clear
  have hclass := hb.classHead
  rw [hch, hold ha] at hclass
  have hmethod : Pattern.firstWhere (fun before => ch.start < byteLength before)
      (mp.findAll s) = some mh := hb.methodHead
  rw [hmh, hold ha'] at hmethod
  refine ⟨⟨ch.before, ch.matched, a ++ h ++ (x ++ (t ++ b.after))⟩,
    ⟨mh.before, mh.matched, a' ++ h ++ (x ++ (t ++ b.after))⟩, ?_, ?_, ?_, hb.class_clear,
    hb.method_clear⟩
  · rw [hnew ha]
    exact Pattern.find?_insert hcp hcx hclass
  · rw [hnew ha']
    exact Pattern.firstWhere_findAll_insert hmp hmx hmethod
  · obtain ⟨head, hhead, hbefore, hrest, hsplit⟩ := firstIn?_eq_some_iff.1 hb.body
    refine firstIn?_eq_some_iff.2 ⟨head, hhead, hbefore, ?_, ?_⟩
    · have hfront : mh.matched ++ a' = head ++ ['{'] := by
        rw [hbefore, List.append_assoc, List.append_assoc] at ha'
        exact (List.append_cancel_left ha').symm
      show mh.matched ++ (a' ++ h ++ (x ++ (t ++ b.after))) =
        head ++ '{' :: (h ++ x ++ t ++ b.after)
      rw [List.append_assoc a', ← List.append_assoc mh.matched, hfront]
      simp
    · rw [hinside] at hsplit
      exact splitAtClose?_insert hx hsplit

/-! ## Where a statement goes -/

theorem insertionPoint_eq_ok {anchor : Option (List Char)} {parts : List Char × List Char}
    (hb : b.insertionPoint anchor = .ok parts) :
    b.inside = parts.1 ++ parts.2 ∧ (parts.2 = [] ∨ ∃ rest, parts.2 = b.newline ++ rest) := by
  cases anchor with
  | none =>
    obtain rfl := Except.ok.inj hb
    exact ⟨(List.append_nil _).symm, .inl rfl⟩
  | some anchor =>
    unfold insertionPoint at hb
    cases hcut : cut? anchor b.inside with
    | none =>
      simp only [hcut] at hb
      nomatch hb
    | some around =>
      obtain ⟨p, q⟩ := around
      have hinside := eq_append_of_cut? hcut
      simp only [hcut] at hb
      cases hline : cut? b.newline q with
      | none =>
        simp only [hline] at hb
        obtain rfl := Except.ok.inj hb
        exact ⟨by rw [hinside, List.append_nil], .inl rfl⟩
      | some around =>
        obtain ⟨line, rest⟩ := around
        simp only [hline] at hb
        obtain rfl := Except.ok.inj hb
        refine ⟨?_, .inr ⟨rest, rfl⟩⟩
        rw [hinside, eq_append_of_cut? hline]
        simp

theorem newline_cases (b : Body) : b.newline = ['\n'] ∨ b.newline = ['\r', '\n'] := by
  unfold newline
  split
  · exact .inr rfl
  · exact .inl rfl

theorem newline_eq_feed_iff : b.newline = ['\n'] ↔ ¬ ['\r', '\n'] <:+: b.inside := by
  rw [newline, ← occursIn_iff]
  split
  · rename_i h
    exact iff_of_false nofun fun hnot => hnot h
  · rename_i h
    exact iff_of_true rfl h

theorem newline_eq_return_iff : b.newline = ['\r', '\n'] ↔ ['\r', '\n'] <:+: b.inside := by
  rw [← not_iff_not, ← newline_eq_feed_iff]
  rcases b.newline_cases with h | h
  · rw [h]
    exact iff_of_true nofun rfl
  · rw [h]
    exact iff_of_false (fun hnot => hnot rfl) nofun

theorem newline_eq (b : Body) : ∃ cr, b.newline = cr ++ ['\n'] ∧ (cr = [] ∨ cr = ['\r']) := by
  rcases b.newline_cases with h | h
  · exact ⟨[], h, .inl rfl⟩
  · exact ⟨['\r'], h, .inr rfl⟩

/-- A text in one line is not broken by what is written at the end of a line, or at the end. -/
theorem infix_of_inserted {needle head tail : List Char} (hfeed : '\n' ∉ needle)
    (hreturn : needle.getLast? ≠ some '\r') (x : List Char)
    (htail : tail = [] ∨ ∃ rest, tail = b.newline ++ rest) (hneedle : needle <:+: head ++ tail) :
    needle <:+: head ++ x ++ tail := by
  rcases htail with rfl | ⟨rest, rfl⟩
  · rw [List.append_nil] at hneedle ⊢
    exact hneedle.trans (List.prefix_append _ _).isInfix
  · rcases b.newline_cases with hline | hline
    · rw [hline] at hneedle ⊢
      exact infix_insert x hfeed hneedle
    · rw [hline] at hneedle ⊢
      have hsplit : head ++ (['\r', '\n'] ++ rest) = head ++ ['\r'] ++ '\n' :: rest := by simp
      rw [hsplit] at hneedle
      rcases infix_of_infix_append_cons hfeed hneedle with hfront | hback
      · rw [List.append_assoc]
        exact (infix_of_infix_concat hreturn hfront).trans (List.prefix_append _ _).isInfix
      · exact hback.trans ⟨head ++ x ++ ['\r'], [], by simp⟩

/-- A statement that was inserted is in the body, which is cut at the insertion point. -/
theorem insert_eq_applied {snippet patched : String} {afterLine : Option String}
    (hb : b.insert snippet afterLine = .ok (.applied patched)) :
    ∃ head tail, b.insertionPoint (anchorOf afterLine) = .ok (head, tail) ∧
      patched.toList = b.before ++ (head ++ (b.newline ++ indent ++ snippet.toList) ++ tail ++
        b.after) := by
  unfold insert at hb
  split at hb
  · nomatch hb
  · cases hpoint : b.insertionPoint (anchorOf afterLine) with
    | error cause =>
      rw [hpoint] at hb
      nomatch hb
    | ok parts =>
      rw [hpoint] at hb
      refine ⟨parts.1, parts.2, rfl, ?_⟩
      have hpatched := TextPatch.applied.inj (Except.ok.inj hb)
      rw [← hpatched, String.toList_ofList]
      simp

theorem insert_of_infix {snippet : String} {afterLine : Option String}
    (hb : Unicode.trim snippet.toList <:+: b.inside) :
    b.insert snippet afterLine = .ok .alreadyApplied := by
  unfold insert
  rw [if_pos (occursIn_iff.2 hb)]

theorem infix_of_insert_alreadyApplied {snippet : String} {afterLine : Option String}
    (hb : b.insert snippet afterLine = .ok .alreadyApplied) :
    Unicode.trim snippet.toList <:+: b.inside := by
  unfold insert at hb
  split at hb
  · exact occursIn_iff.1 ‹_›
  · cases hpoint : b.insertionPoint (anchorOf afterLine) with
    | error cause =>
      rw [hpoint] at hb
      nomatch hb
    | ok parts =>
      rw [hpoint] at hb
      nomatch hb

end Body

end AndroidFonts
