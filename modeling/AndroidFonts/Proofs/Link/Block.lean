/-
# `AndroidFonts.Proofs.Link.Block` — families are registered in one block

The calls of a list of families are written one after the other, each on the line behind the call
before it.  So they stand together, in the order of the families, behind the line of the body on which
the call of the superclass first stands, and nothing else changes (`Registration.registrations_in_block`).

What carries the induction is a slot (`Registration.Slot`): a place in a body where the next call goes.
Writing a call there makes the next slot (`Slot.insert`), because

* the body is found where it was (`Opened.insert`) and keeps its line break (`newline_inserted`);
* the call stands nowhere else in the body, so its first occurrence is the one that was written
  (`cut?_call`);
* it holds no other call: a call has two quotes, and what stands between and behind them makes it
  (`eq_of_infix_call`).
-/
import AndroidFonts.Proofs.Link.DryRun
import AndroidFonts.Proofs.Source.Removal

namespace AndroidFonts

open Text Linker

/-! ## Texts -/

namespace Text

/-- Whether all line breaks of a text are of one kind: all of them line feeds, with no half of another
kind at the end, or all of them carriage returns with line feeds. -/
def OneBreak (s : List Char) : Prop :=
  (¬ ['\r', '\n'] <:+: s ∧ s.getLast? ≠ some '\r') ∨
    (['\r', '\n'] <:+: s ∧ ∀ u v, s = u ++ '\n' :: v → u.getLast? = some '\r')

end Text

/-! ## A call holds no other call -/

namespace Registration

variable {d : Dialect} {f g : FontFamily} {s : List Char}

/-- What a call begins with, up to its first quote. -/
def callee : List Char := "ReactFontManager.getInstance().addCustomFont(this, ".toList

/-- What a call ends with, from its second quote. -/
def callEnd (resourceId : String) (d : Dialect) : List Char :=
  ", R.font.".toList ++ (resourceId.toList ++ ')' :: d.terminator.toList)

theorem callEnd_eq (resourceId : String) (d : Dialect) : callEnd resourceId d =
    ", R.font.".toList ++ (resourceId.toList ++ ')' :: d.terminator.toList) := rfl

theorem toList_call_eq (family resourceId : String) (d : Dialect) :
    (call family resourceId d).toList =
      callee ++ '"' :: (family.toList ++ '"' :: callEnd resourceId d) := by
  have hopening : "ReactFontManager.getInstance().".toList ++ "addCustomFont(this, \"".toList =
      callee ++ ['"'] := by
    decide
  rw [toList_call, toList_needle, ← List.append_assoc "ReactFontManager.getInstance().".toList,
    hopening, callEnd_eq]
  simp only [List.append_assoc, List.cons_append, List.nil_append]

theorem quote_not_mem_callEnd (f : FontFamily) (d : Dialect) :
    '"' ∉ callEnd f.resourceId d := by
  have hid : '"' ∉ f.resourceId.toList := fun hmem =>
    (isResource_of_mem_normalizeName hmem).ne (by decide) rfl
  have hend : '"' ∉ d.terminator.toList := by
    cases d <;> decide
  have hfront : '"' ∉ ", R.font.".toList := by decide
  rw [callEnd_eq, List.mem_append, List.mem_append, List.mem_cons]
  rintro (h | h | h | h)
  · exact hfront h
  · exact hid h
  · exact absurd h (by decide)
  · exact hend h

theorem eq_of_callEnd_append {q : List Char}
    (h : callEnd f.resourceId d ++ q = callEnd g.resourceId d) :
    callEnd f.resourceId d = callEnd g.resourceId d := by
  have hid : ∀ f : FontFamily, ')' ∉ f.resourceId.toList := fun f hmem =>
    (isResource_of_mem_normalizeName hmem).ne (by decide) rfl
  rw [callEnd_eq, callEnd_eq] at h ⊢
  simp only [List.append_assoc, List.cons_append, List.append_cancel_left_eq] at h
  rw [(append_cons_inj (hid f) (hid g) h).1]

/-- A call that stands in a call is that call. -/
theorem eq_of_infix_call (hf : '"' ∉ f.family.toList) (hg : '"' ∉ g.family.toList)
    (h : (call f.family f.resourceId d).toList <:+: (call g.family g.resourceId d).toList) :
    call f.family f.resourceId d = call g.family g.resourceId d := by
  obtain ⟨p, q, hpq⟩ := h
  rw [toList_call_eq, toList_call_eq] at hpq
  have hcallee : '"' ∉ callee := by decide
  -- both calls have two quotes
  obtain ⟨-, hfamily, hend⟩ := quoted_inj hcallee hf hcallee hg (quote_not_mem_callEnd g d) hpq
  refine String.ext ?_
  rw [toList_call_eq, toList_call_eq, hfamily, eq_of_callEnd_append hend]

/-! ## What a call in a body leaves -/

/-- The name of a family can stand in a call: it holds no quote, no brace and no line feed. -/
def Callable (f : FontFamily) : Prop :=
  ∀ c ∈ f.family.toList, c ≠ '"' ∧ c ≠ '{' ∧ c ≠ '}' ∧ c ≠ '\n'

instance (f : FontFamily) : Decidable (Callable f) :=
  List.decidableBAll (fun c => c ≠ '"' ∧ c ≠ '{' ∧ c ≠ '}' ∧ c ≠ '\n') f.family.toList

namespace Callable

theorem quote (h : Callable f) : '"' ∉ f.family.toList := fun hmem => (h _ hmem).1 rfl

theorem feed (h : Callable f) : '\n' ∉ f.family.toList := fun hmem => (h _ hmem).2.2.2 rfl

theorem balanced (h : Callable f) : Balanced f.family.toList :=
  balanced_of_not_mem (fun hmem => (h _ hmem).2.1 rfl) fun hmem => (h _ hmem).2.2.1 rfl

end Callable

theorem head_call (family resourceId : String) (d : Dialect) :
    ∃ rest, (call family resourceId d).toList = 'R' :: rest := by
  obtain ⟨rest, hrest⟩ := opening_prefix_call family resourceId d
  exact ⟨opening.tail ++ rest, hrest⟩

section
variable {b : Body} {head tail : List Char}

theorem onOneLine_indented (hf : Callable f) (d : Dialect) :
    OnOneLine (Body.indent ++ (call f.family f.resourceId d).toList) := by
  obtain ⟨hfeed, hlast⟩ := onOneLine_call hf.feed d
  obtain ⟨rest, hrest⟩ := head_call f.family f.resourceId d
  refine ⟨fun hmem => (List.mem_append.1 hmem).elim (by decide) hfeed, ?_⟩
  rw [List.getLast?_append_of_ne_nil _ (by rw [hrest]; exact List.cons_ne_nil _ _)]
  exact hlast

/-- A call that was written into a body stands behind the line feed that was written with it. -/
theorem inserted_eq {cr : List Char} (hnewline : b.newline = cr ++ ['\n']) (f : FontFamily)
    (d : Dialect) : head ++ line b.newline f d ++ tail =
      (head ++ cr) ++ '\n' :: (Body.indent ++ (call f.family f.resourceId d).toList ++ tail) := by
  rw [line, hnewline]
  simp

/-- A body with a call keeps its line break, if the call is not written between a carriage return and
its line feed. -/
theorem newline_inserted (d : Dialect) (hinside : b.inside = head ++ tail)
    (htail : tail = [] ∨ ∃ rest, tail = b.newline ++ rest)
    (hwhole : b.newline = ['\n'] → head.getLast? ≠ some '\r') (hf : Callable f)
    (before after : List Char) :
    (Body.mk before (head ++ line b.newline f d ++ tail) after).newline = b.newline := by
  rcases b.newline_cases with hline | hline
  · have hnone := Body.newline_eq_feed_iff.1 hline
    obtain ⟨hfeed, hlast⟩ := onOneLine_indented hf d
    have hcall : ¬ ['\r', '\n'] <:+: Body.indent ++ (call f.family f.resourceId d).toList :=
      fun hin => hfeed (hin.subset (List.mem_cons_of_mem _ List.mem_cons_self))
    have hnew : ¬ ['\r', '\n'] <:+: head ++ line b.newline f d ++ tail := by
      rw [inserted_eq (show b.newline = [] ++ ['\n'] from hline), List.append_nil]
      intro hin
      rcases return_infix_append_cons hin with hin | hin | hin
      · exact hnone (hin.trans (hinside ▸ List.prefix_append head tail).isInfix)
      · exact hwhole hline hin
      · rcases htail with rfl | ⟨rest, rfl⟩
        · rw [List.append_nil] at hin
          exact hcall hin
        · rw [hline] at hin hinside
          rcases return_infix_append_cons hin with hin | hin | hin
          · exact hcall hin
          · exact hlast hin
          · exact hnone (hin.trans ⟨head ++ ['\n'], [], by rw [hinside]; simp⟩)
    rw [hline] at hnew ⊢
    exact Body.newline_eq_feed_iff.2 hnew
  · rw [hline]
    exact Body.newline_eq_return_iff.2
      ⟨head, Body.indent ++ (call f.family f.resourceId d).toList ++ tail, by rw [line]; simp⟩

/-- The first occurrence of a call that was written into a body is the one that was written, if it did
not stand there before. -/
theorem cut?_call (b : Body) (hf : Callable f)
    (hnone : ¬ (call f.family f.resourceId d).toList <:+: head ++ tail) :
    cut? (call f.family f.resourceId d).toList (head ++ line b.newline f d ++ tail) =
      some (head ++ b.newline ++ Body.indent, tail) := by
  obtain ⟨cr, hnewline, hcr⟩ := b.newline_eq
  have hsplit : head ++ line b.newline f d ++ tail = head ++ b.newline ++ Body.indent ++
      ((call f.family f.resourceId d).toList ++ tail) := by
    rw [line]
    simp
  have hx : head ++ b.newline ++ Body.indent = (head ++ cr) ++ '\n' :: Body.indent := by
    rw [hnewline]
    simp
  rw [hsplit]
  refine cut?_of_forall fun y z hyz hz hprefix => ?_
  rw [hx, List.append_eq_append_iff] at hyz
  rcases hyz with ⟨m, -, hm⟩ | ⟨m, hm, rfl⟩
  · -- a call begins neither at the line feed nor at a blank
    obtain ⟨rest, hrest⟩ := head_call f.family f.resourceId d
    cases z with
    | nil => exact hz rfl
    | cons c z =>
      rw [hrest, List.cons_append, List.cons_prefix_cons] at hprefix
      have hmem : c ∈ '\n' :: Body.indent := hm ▸ List.mem_append_right _ List.mem_cons_self
      rw [← hprefix.1] at hmem
      exact absurd hmem (by decide)
  · -- and one that begins in front of it ends there, too
    rw [List.append_assoc, List.cons_append] at hprefix
    have hfront := prefix_of_prefix_append_cons (feed_not_mem_call hf.feed d) hprefix
    have hin : (call f.family f.resourceId d).toList <:+: head ++ cr :=
      hfront.isInfix.trans (hm ▸ (List.suffix_append y m).isInfix)
    exact hnone ((infix_of_infix_append_last (onOneLine_call hf.feed d).2 hcr hin).trans
      (List.prefix_append head tail).isInfix)

/-- A call that was written into a body brings no other call with it. -/
theorem not_infix_inserted (htail : tail = [] ∨ ∃ rest, tail = b.newline ++ rest) (hf : Callable f)
    (hg : Callable g) (hne : call g.family g.resourceId d ≠ call f.family f.resourceId d)
    (hnone : ¬ (call g.family g.resourceId d).toList <:+: head ++ tail) :
    ¬ (call g.family g.resourceId d).toList <:+: head ++ line b.newline f d ++ tail := by
  obtain ⟨cr, hnewline, hcr⟩ := b.newline_eq
  obtain ⟨hfeed, hlast⟩ := onOneLine_call hg.feed d
  have hother : ¬ (call g.family g.resourceId d).toList <:+:
      Body.indent ++ (call f.family f.resourceId d).toList := by
    intro hin
    obtain ⟨rest, hrest⟩ := head_call g.family g.resourceId d
    refine hne (eq_of_infix_call hg.quote hf.quote (infix_of_infix_append (fun a ha => ?_) hin))
    rw [hrest] at ha
    rw [← Option.some.inj ha]
    decide
  rw [inserted_eq hnewline]
  intro hin
  rcases infix_of_infix_append_cons hfeed hin with hin | hin
  · exact hnone ((infix_of_infix_append_last hlast hcr hin).trans
      (List.prefix_append head tail).isInfix)
  · replace hin := infix_of_infix_cons hfeed hin
    rcases htail with rfl | ⟨rest, rfl⟩
    · rw [List.append_nil] at hin
      exact hother hin
    · rw [hnewline, List.append_assoc cr, ← List.append_assoc] at hin
      rcases infix_of_infix_append_cons hfeed hin with hin | hin
      · exact hother (infix_of_infix_append_last hlast hcr hin)
      · exact hnone (hin.trans ⟨head ++ cr, [], by rw [hnewline]; simp⟩)

end

/-! ## Slots -/

/-- A place in a body, between two parts of it, where a call that follows an anchor goes.  It is not
between a carriage return and its line feed. -/
structure Slot (d : Dialect) (text : String) (b : Body) (anchor : String) (head tail : List Char) :
    Prop where
  opened : Opened d text.toList b
  point : b.insertionPoint (Body.anchorOf (some anchor)) = .ok (head, tail)
  whole : b.newline = ['\n'] → head.getLast? ≠ some '\r'

section
variable {text anchor : String} {b : Body} {head tail : List Char}

theorem anchorOf_call (f : FontFamily) (d : Dialect) :
    Body.anchorOf (some (call f.family f.resourceId d)) =
      some (call f.family f.resourceId d).toList := by
  obtain ⟨rest, hrest⟩ := head_call f.family f.resourceId d
  rw [Body.anchorOf, Option.map_some, trim_call, Option.filter_some, if_pos]
  rw [hrest]
  rfl

theorem insertionPoint_of_cut? {a p q : List Char} (hcut : cut? a b.inside = some (p, q))
    (hq : q = [] ∨ ∃ rest, q = b.newline ++ rest) :
    b.insertionPoint (some a) = .ok (p ++ a, q) := by
  rw [Body.insertionPoint, hcut]
  rcases hq with rfl | ⟨rest, rfl⟩
  · have hnone : cut? b.newline [] = none := by
      rcases b.newline_cases with h | h
      · rw [h]
        rfl
      · rw [h]
        rfl
    simp only [hnone, List.append_nil]
  · simp only [cut?_self_append, List.append_nil]

theorem Slot.inside_eq (h : Slot d text b anchor head tail) : b.inside = head ++ tail :=
  (Body.insertionPoint_eq_ok h.point).1

theorem Slot.tail_eq (h : Slot d text b anchor head tail) :
    tail = [] ∨ ∃ rest, tail = b.newline ++ rest :=
  (Body.insertionPoint_eq_ok h.point).2

theorem Slot.newline_eq (h : Slot d text b anchor head tail) (hf : Callable f) :
    (Body.mk b.before (head ++ line b.newline f d ++ tail) b.after).newline = b.newline :=
  newline_inserted d h.inside_eq h.tail_eq h.whole hf b.before b.after

/-- A call that is not in a body is written into its slot, and the slot of the next call is behind
it. -/
theorem Slot.insert (h : Slot d text b anchor head tail) (hf : Callable f)
    (hnone : ¬ (call f.family f.resourceId d).toList <:+: b.inside) :
    ∃ patched, (registration anchor f d).run text d = .ok (.applied patched) ∧
      Slot d patched ⟨b.before, head ++ line b.newline f d ++ tail, b.after⟩
        (call f.family f.resourceId d) (head ++ line b.newline f d) tail := by
  refine ⟨String.ofList (b.before ++ head ++ b.newline ++ Body.indent ++
    (call f.family f.resourceId d).toList ++ tail ++ b.after), ?_, ?_, ?_, fun _ => ?_⟩
  · rw [run_registration h.opened.locate, Body.insert, trim_call,
      if_neg fun hin => hnone (occursIn_iff.1 hin), h.point]
    rfl
  · have htext : b.before ++ head ++ b.newline ++ Body.indent ++
        (call f.family f.resourceId d).toList ++ tail ++ b.after =
          b.before ++ (head ++ line b.newline f d ++ tail ++ b.after) := by
      rw [line]
      simp
    rw [String.toList_ofList, htext]
    exact h.opened.insert hf.balanced h.inside_eq
  · have hcut := cut?_call b hf (h.inside_eq ▸ hnone)
    rw [anchorOf_call, insertionPoint_of_cut? hcut (by rw [h.newline_eq hf]; exact h.tail_eq)]
    simp [line]
  · rw [line, ← List.append_assoc, List.getLast?_append_of_ne_nil]
    · exact (onOneLine_call hf.feed d).2
    · obtain ⟨rest, hrest⟩ := head_call f.family f.resourceId d
      rw [hrest]
      exact List.cons_ne_nil _ _

/-- Calls that are not in a body are written into its slot, one behind the other. -/
theorem Slot.registrations {families : List FontFamily} (h : Slot d text b anchor head tail)
    (file : Path) (hnames : ∀ f ∈ families, Callable f)
    (hdistinct : (families.map fun f => call f.family f.resourceId d).Nodup)
    (hnone : ∀ f ∈ families, ¬ (call f.family f.resourceId d).toList <:+: b.inside) :
    (∀ x ∈ Operation.outcomes d text
      ((Linker.registrations d file anchor families).map (·.operation)),
        ∃ patched, x = .ok (.applied patched)) ∧
    (Operation.finalText d text
      ((Linker.registrations d file anchor families).map (·.operation))).toList =
        b.before ++ (head ++ families.flatMap (fun f => line b.newline f d) ++ tail ++ b.after) := by
  induction families generalizing text b anchor head with
  | nil =>
    refine ⟨nofun, ?_⟩
    change text.toList = _
    rw [h.opened.text_eq, h.inside_eq]
    simp
  | cons f families ih =>
    rw [List.map_cons, List.nodup_cons] at hdistinct
    have hf := hnames f List.mem_cons_self
    obtain ⟨patched, hrun, hslot⟩ := h.insert hf (hnone f List.mem_cons_self)
    have hrest : ∀ g ∈ families, ¬ (call g.family g.resourceId d).toList <:+:
        head ++ line b.newline f d ++ tail := by
      intro g hg
      refine not_infix_inserted h.tail_eq hf (hnames g (List.mem_cons_of_mem _ hg))
        (fun heq => ?_) (h.inside_eq ▸ hnone g (List.mem_cons_of_mem _ hg))
      exact hdistinct.1 (List.mem_map.2 ⟨g, hg, heq⟩)
    obtain ⟨hok, htext⟩ := ih hslot (fun g hg => hnames g (List.mem_cons_of_mem _ hg))
      hdistinct.2 hrest
    rw [h.newline_eq hf] at htext
    change (∀ x ∈ (registration anchor f d).run text d :: Operation.outcomes d
      (Operation.textAfter text ((registration anchor f d).run text d))
      ((Linker.registrations d file (call f.family f.resourceId d) families).map (·.operation)), _) ∧
      (Operation.finalText d (Operation.textAfter text ((registration anchor f d).run text d))
        ((Linker.registrations d file (call f.family f.resourceId d) families).map
          (·.operation))).toList = _
    rw [hrun]
    refine ⟨fun x hx => ?_, ?_⟩
    · rcases List.mem_cons.1 hx with rfl | hx
      · exact ⟨patched, rfl⟩
      · exact hok x hx
    · refine htext.trans ?_
      rw [List.flatMap_cons]
      simp

end

/-! ## The first slot -/

/-- The heads that a body is found by stand in order: the head of the class ends in front of the head
of the method, and that one holds no brace. -/
def HeadsInOrder (d : Dialect) (s : List Char) : Prop :=
  ∃ cp mp ch mh, Body.anchorPattern d (.classHead Layout.applicationClass) = .ok cp ∧
    cp.find? s = some ch ∧ Body.anchorPattern d (.methodHead Linker.registerMethod) = .ok mp ∧
    (mp.findAll s).find? (fun m => ch.start < m.start) = some mh ∧
    ch.stop ≤ mh.start ∧ '{' ∉ mh.matched

section
variable {text : String} {b : Body}

theorem HeadsInOrder.opened (h : HeadsInOrder d text.toList)
    (hlocate : Body.locate text Layout.applicationClass Linker.registerMethod d = .ok b) :
    Opened d text.toList b := by
  obtain ⟨cp, mp, ch, mh, hcp, hch, hmp, hmh, horder, hbrace⟩ := h
  obtain ⟨cp', mp', ch', mh', hcp', hch', hmp', hmh', hbody⟩ := Body.locate_eq_ok hlocate
  obtain rfl := Except.ok.inj (hcp.symm.trans hcp')
  obtain rfl := Except.ok.inj (hmp.symm.trans hmp')
  obtain rfl := Option.some.inj (hch.symm.trans hch')
  obtain rfl := Option.some.inj (hmh.symm.trans hmh')
  obtain ⟨head, -, hbefore, hrest, -⟩ := Body.firstIn?_eq_some_iff.1 hbody
  refine ⟨cp, mp, ch, mh, hcp, hmp, hch, hmh, hbody, ?_, ?_⟩
  · have hclass : ch.before ++ ch.matched <+: text.toList := ⟨ch.after, Pattern.text_of_find? hch⟩
    have hmethod : mh.before <+: text.toList := by
      refine ⟨mh.matched ++ mh.after, ?_⟩
      rw [← List.append_assoc]
      exact Pattern.text_of_mem_findFrom (List.mem_of_find?_eq_some hmh)
    refine (prefix_of_byteLength_le hclass hmethod ?_).trans ⟨head ++ ['{'], by rw [hbefore]; simp⟩
    rw [byteLength_append]
    exact horder
  · have hmatched : mh.matched <+: head :=
      prefix_of_prefix_append_cons hbrace (hrest ▸ List.prefix_append _ _)
    rw [hbefore, List.append_assoc, List.prefix_append_right_inj]
    exact hmatched.trans (List.prefix_append _ _)

theorem headsInOrder_of_any {s : List Char}
    (h : ((Anchor.classHead Layout.applicationClass).pattern? d).any (fun cp =>
      ((Anchor.methodHead Linker.registerMethod).pattern? d).any fun mp =>
        (cp.find? s).any fun ch => ((mp.findAll s).find? fun m => ch.start < m.start).any fun mh =>
          ch.stop ≤ mh.start && !mh.matched.contains '\x7b') = true) : HeadsInOrder d s := by
  obtain ⟨cp, hcp, h⟩ := (Option.any_eq_true _ _).1 h
  obtain ⟨mp, hmp, h⟩ := (Option.any_eq_true _ _).1 h
  obtain ⟨ch, hch, h⟩ := (Option.any_eq_true _ _).1 h
  obtain ⟨mh, hmh, h⟩ := (Option.any_eq_true _ _).1 h
  simp only [Bool.and_eq_true, decide_eq_true_eq, Bool.not_eq_true', List.contains_eq_mem,
    decide_eq_false_iff_not] at h
  exact ⟨cp, mp, ch, mh, by rw [Body.anchorPattern, hcp], hch, by rw [Body.anchorPattern, hmp], hmh,
    h.1, h.2⟩

/-- What follows a text goes to the end of the line on which the text first stands. -/
theorem exists_line {a : List Char} (hne : a ≠ []) (hlast : a.getLast? ≠ some '\r')
    (hbreak : OneBreak b.inside) (ha : a <:+: b.inside) :
    ∃ p w tail, cut? a b.inside = some (p, w ++ tail) ∧ '\n' ∉ w ∧
      b.insertionPoint (some a) = .ok (p ++ a ++ w, tail) := by
  obtain ⟨⟨p, q⟩, hcut⟩ := Option.isSome_iff_exists.1 (occursIn_iff.2 ha)
  have hinside := eq_append_of_cut? hcut
  -- a line feed in a part of the text behind `a` is one of a line break of the body
  have hclean : ∀ w tail, q = w ++ tail → ¬ b.newline <:+: w → '\n' ∉ w := by
    intro w tail hq hnone hmem
    obtain ⟨u, v, rfl⟩ := List.append_of_mem hmem
    rcases b.newline_cases with hline | hline
    · exact hnone (hline ▸ ⟨u, v, by simp⟩)
    obtain ⟨-, hreturns⟩ := hbreak.resolve_left fun h => h.1 (Body.newline_eq_return_iff.1 hline)
    have hu := hreturns (p ++ a ++ u) (v ++ tail) (by rw [hinside, hq]; simp)
    rcases List.eq_nil_or_concat' u with rfl | ⟨u, c, rfl⟩
    · rw [List.append_nil, List.getLast?_append_of_ne_nil _ hne] at hu
      exact hlast hu
    · rw [← List.append_assoc, List.getLast?_concat] at hu
      obtain rfl := Option.some.inj hu
      exact hnone (hline ▸ ⟨u, v, by simp⟩)
  cases hend : cut? b.newline q with
  | none =>
    refine ⟨p, q, [], by rwa [List.append_nil], hclean q [] (List.append_nil q).symm fun hin => ?_,
      ?_⟩
    · have hsome := occursIn_iff.2 hin
      rw [occursIn, hend] at hsome
      nomatch hsome
    · simp only [Body.insertionPoint, hcut, hend]
  | some parts =>
    obtain ⟨w, rest⟩ := parts
    have hq := eq_append_of_cut? hend
    rw [List.append_assoc] at hq
    refine ⟨p, w, b.newline ++ rest, hq ▸ hcut, hclean w _ hq (not_infix_of_cut? ?_ hend), ?_⟩
    · rcases b.newline_cases with hline | hline
      · rw [hline]
        exact List.cons_ne_nil _ _
      · rw [hline]
        exact List.cons_ne_nil _ _
    · simp only [Body.insertionPoint, hcut, hend]

/-- In a body with one kind of line breaks, what goes to the end of a line is written between no
carriage return and its line feed. -/
theorem getLast?_ne_of_oneBreak {head tail : List Char} (hbreak : OneBreak b.inside)
    (hinside : b.inside = head ++ tail) (htail : tail = [] ∨ ∃ rest, tail = b.newline ++ rest)
    (hline : b.newline = ['\n']) : head.getLast? ≠ some '\r' := by
  have hnone := Body.newline_eq_feed_iff.1 hline
  intro hlast
  rcases htail with rfl | ⟨rest, rfl⟩
  · rw [List.append_nil] at hinside
    exact (hbreak.resolve_right fun h => hnone h.1).2 (hinside ▸ hlast)
  · obtain ⟨u, rfl⟩ := List.getLast?_eq_some_iff.1 hlast
    rw [hline] at hinside
    exact hnone ⟨u, rest, by rw [hinside]; simp⟩

end

/-! ## The block -/

/-- The call of the superclass that families are registered behind. -/
def superCall : String := "super." ++ Linker.registerMethod ++ "()"

/-- The statements among some patches. -/
def statements (patches : List SourcePatch) : List Operation :=
  (patches.map (·.operation)).filter fun
    | .insertStatement .. => true
    | _ => false

theorem statements_registrations (d : Dialect) (file : Path) (anchor : String)
    (families : List FontFamily) : statements (Linker.registrations d file anchor families) =
      (Linker.registrations d file anchor families).map (·.operation) := by
  refine List.filter_eq_self.2 fun op hop => ?_
  obtain ⟨p, hp, rfl⟩ := List.mem_map.1 hop
  obtain ⟨f, -, anchor', hop⟩ := mem_registrations hp
  rw [hop]
  rfl

theorem statements_fontPatches {k : Linker} {t : FileTree} {families : List FontFamily}
    {patches : List SourcePatch} (h : k.fontPatches t families = .ok patches) :
    ∃ file, statements patches =
      (Linker.registrations k.dialect file superCall families).map (·.operation) := by
  rcases Linker.fontPatches_eq_ok h with ⟨rfl, rfl⟩ | ⟨-, file, -, rfl⟩
  · exact ⟨⟨""⟩, rfl⟩
  · exact ⟨file, statements_registrations k.dialect file superCall families⟩

/-- All statements that register families are written, and make one block of lines, in the order of
the families, behind the line on which the call of the superclass first stands. -/
theorem registrations_in_block {k : Linker} {t : FileTree} {families : List FontFamily}
    {patches : List SourcePatch} {text : String} {b : Body}
    (hpatches : k.fontPatches t families = .ok patches)
    (hnames : ∀ f ∈ families, Callable f)
    (hdistinct : (families.map fun f => call f.family f.resourceId k.dialect).Nodup)
    (hlocate : Body.locate text Layout.applicationClass Linker.registerMethod k.dialect = .ok b)
    (hheads : HeadsInOrder k.dialect text.toList) (hbreak : OneBreak b.inside)
    (hsuper : superCall.toList <:+: b.inside)
    (hnone : ∀ f ∈ families, ¬ (call f.family f.resourceId k.dialect).toList <:+: b.inside) :
    (Operation.outcomes k.dialect text (statements patches)).length = families.length ∧
    (∀ x ∈ Operation.outcomes k.dialect text (statements patches),
      ∃ patched, x = .ok (.applied patched)) ∧
    ∃ p w tail, cut? superCall.toList b.inside = some (p, w ++ tail) ∧ '\n' ∉ w ∧
      (tail = [] ∨ ∃ rest, tail = b.newline ++ rest) ∧
      text.toList = b.before ++ (p ++ superCall.toList ++ w ++ tail ++ b.after) ∧
      (Operation.finalText k.dialect text (statements patches)).toList =
        b.before ++ (p ++ superCall.toList ++ w ++
          families.flatMap (fun f => line b.newline f k.dialect) ++ tail ++ b.after) := by
  obtain ⟨p, w, tail, hcut, hw, hpoint⟩ := exists_line (by decide) (by decide) hbreak hsuper
  have hanchor : Body.anchorOf (some superCall) = some superCall.toList := by
    cbv
  obtain ⟨hinside, htail⟩ := Body.insertionPoint_eq_ok hpoint
  have hopened := hheads.opened hlocate
  have hslot : Slot k.dialect text b superCall (p ++ superCall.toList ++ w) tail :=
    ⟨hopened, hanchor ▸ hpoint, getLast?_ne_of_oneBreak hbreak hinside htail⟩
  obtain ⟨file, hstatements⟩ := statements_fontPatches hpatches
  obtain ⟨hok, hfinal⟩ := hslot.registrations file hnames hdistinct hnone
  rw [hstatements]
  refine ⟨?_, hok, p, w, tail, hcut, hw, htail, ?_, hfinal⟩
  · rw [Operation.length_outcomes, List.length_map, length_registrations]
  · rw [hopened.text_eq, hinside]

/-- A class whose method has two statements. -/
def classWithStatements : String :=
  "class MainApplication\x7bpublic void onCreate()\x7b\n  super.onCreate();\n  run();\n\x7d\x7d"

theorem registrations_in_block_two : ∃ patches,
    plainLinker.fontPatches plainProject [lato, ⟨"Inter", none, []⟩] = .ok patches ∧
    (Operation.finalText .java classWithStatements (statements patches)) =
      "class MainApplication\x7bpublic void onCreate()\x7b\n  super.onCreate();\n" ++
        "    ReactFontManager.getInstance().addCustomFont(this, \"Lato\", R.font.lato);\n" ++
        "    ReactFontManager.getInstance().addCustomFont(this, \"Inter\", R.font.inter);\n" ++
        "  run();\n\x7d\x7d" := by
  obtain ⟨patches, hpatches⟩ : ∃ patches,
      plainLinker.fontPatches plainProject [lato, ⟨"Inter", none, []⟩] = .ok patches :=
    FileTree.ok_of_isSome (by decide +kernel)
  have hlocate : Body.locate classWithStatements Layout.applicationClass Linker.registerMethod
      .java = .ok ⟨"class MainApplication\x7bpublic void onCreate()\x7b".toList,
        "\n  super.onCreate();\n  run();\n".toList, "\x7d\x7d".toList⟩ := by
    decide +kernel
  obtain ⟨-, -, p, w, tail, hcut, hw, htail, -, hfinal⟩ := registrations_in_block hpatches
    (by decide +kernel) (by decide +kernel) hlocate (headsInOrder_of_any (by decide +kernel))
    (.inl (by decide +kernel)) (by decide +kernel) (by decide +kernel)
  have hcut' : cut? superCall.toList "\n  super.onCreate();\n  run();\n".toList =
      some ("\n  ".toList, ";".toList ++ '\n' :: "  run();\n".toList) := by
    decide +kernel
  obtain ⟨rfl, hrest⟩ := Prod.mk.inj (Option.some.inj (hcut.symm.trans hcut'))
  obtain ⟨rest, rfl⟩ := htail.resolve_left fun htail => by
    rw [htail, List.append_nil] at hrest
    exact hw (hrest ▸ by decide +kernel)
  obtain ⟨rfl, rfl⟩ := append_cons_inj hw (by decide) hrest
  exact ⟨patches, hpatches, String.ext (hfinal.trans (by decide +kernel))⟩

end Registration

end AndroidFonts
