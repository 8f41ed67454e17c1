/-
# `AndroidFonts.Proofs.Source.Registration` — families that have been registered stay so

Families are registered by an import and by one call each.  Once this has been done, doing it again
changes nothing: the import and every call are found where they are (`Registration.run_again`).

The call of a family is balanced if the name of the family is, and no match of a head can run into
it, since after its opening no head can go on (`Registration.stops_call`).  So writing it into the
body leaves the body where it was found, with the calls that it held (`Ready.insertion`).  A text is
ready for this if the heads of the class and of the method end in front of the body, and if the import
stands there as well (`Registration.Ready`).
-/
import AndroidFonts.Link.Linker
import AndroidFonts.Proofs.Font.Name
import AndroidFonts.Proofs.Source.Insertion

namespace AndroidFonts

open Text

namespace Operation

variable {d : Dialect} {text : String} {op : Operation} {ops : List Operation}

theorem outcomes_cons (d : Dialect) (text : String) (op : Operation) (ops : List Operation) :
    outcomes d text (op :: ops) =
      op.run text d :: outcomes d (textAfter text (op.run text d)) ops := rfl

theorem finalText_cons (d : Dialect) (text : String) (op : Operation) (ops : List Operation) :
    finalText d text (op :: ops) = finalText d (textAfter text (op.run text d)) ops := rfl

/-- Operations that find their work done leave the text as it is. -/
theorem finalText_of_alreadyApplied (h : ∀ op ∈ ops, op.run text d = .ok .alreadyApplied) :
    finalText d text ops = text ∧ outcomes d text ops = ops.map fun _ => .ok .alreadyApplied := by
  induction ops with
  | nil => exact ⟨rfl, rfl⟩
  | cons op ops ih =>
    have hrun := h op List.mem_cons_self
    obtain ⟨htext, houtcomes⟩ := ih fun op hop => h op (List.mem_cons_of_mem _ hop)
    rw [finalText_cons, outcomes_cons, hrun, List.map_cons]
    exact ⟨htext, congrArg _ houtcomes⟩

/-- Where every operation found its work done, the text is the one from before. -/
theorem finalText_of_outcomes (h : ∀ x ∈ outcomes d text ops, x = .ok .alreadyApplied) :
    finalText d text ops = text := by
  induction ops with
  | nil => rfl
  | cons op ops ih =>
    rw [outcomes_cons] at h
    have hrun := h _ List.mem_cons_self
    rw [hrun] at h
    rw [finalText_cons, hrun]
    exact ih fun x hx => h x (List.mem_cons_of_mem _ hx)

theorem length_outcomes (d : Dialect) (text : String) (ops : List Operation) :
    (outcomes d text ops).length = ops.length := by
  induction ops generalizing text with
  | nil => rfl
  | cons op ops ih => rw [outcomes_cons, List.length_cons, ih, List.length_cons]

end Operation

/-! ## Calls -/

namespace Registration

variable {family resourceId : String} {d : Dialect} {f : FontFamily}

theorem toList_call (family resourceId : String) (d : Dialect) :
    (call family resourceId d).toList = "ReactFontManager.getInstance().".toList ++
      (needle family).toList ++ (", R.font.".toList ++ (resourceId.toList ++ (')' ::
        d.terminator.toList))) := by
  have hfront : "ReactFontManager.getInstance().addCustomFont(this, \"" =
      "ReactFontManager.getInstance()." ++ "addCustomFont(this, \"" := by rfl
  have hback : "\", R.font." = "\"" ++ ", R.font." := by rfl
  unfold call needle
  rw [hfront, hback]
  simp only [String.toList_append, List.append_assoc]
  rfl

theorem toList_needle (family : String) :
    (needle family).toList = "addCustomFont(this, \"".toList ++ (family.toList ++ ['"']) := by
  unfold needle
  simp only [String.toList_append, List.append_assoc]
  rfl

theorem needle_infix_call (family resourceId : String) (d : Dialect) :
    (needle family).toList <:+: (call family resourceId d).toList :=
  ⟨_, _, (toList_call family resourceId d).symm⟩

theorem getLast?_needle (family : String) : (needle family).toList.getLast? ≠ some '\r' := by
  rw [toList_needle, ← List.append_assoc, List.getLast?_concat]
  decide

theorem feed_not_mem_needle {family : String} (h : '\n' ∉ family.toList) :
    '\n' ∉ (needle family).toList := by
  rw [toList_needle]
  simp only [List.mem_append, not_or]
  exact ⟨by decide, h, by decide⟩

/-- The call that registers a family breaks a line only where the name of the family does. -/
theorem feed_not_mem_call (h : '\n' ∉ f.family.toList) (d : Dialect) :
    '\n' ∉ (call f.family f.resourceId d).toList := by
  have hid : '\n' ∉ f.resourceId.toList := fun hmem =>
    (isResource_of_mem_normalizeName hmem).ne (by decide) rfl
  have hend : '\n' ∉ d.terminator.toList := by
    cases d <;> decide
  rw [toList_call]
  simp only [List.mem_append, List.mem_cons, not_or]
  exact ⟨⟨by decide, feed_not_mem_needle h⟩, by decide, hid, by decide, hend⟩

/-- Whether a text is on one line, and does not end in the middle of a line break. -/
def OnOneLine (s : List Char) : Prop := '\n' ∉ s ∧ s.getLast? ≠ some '\r'

theorem getLast?_call (family resourceId : String) (d : Dialect) :
    (call family resourceId d).toList.getLast? = some ')' ∨
      (call family resourceId d).toList.getLast? = some ';' := by
  rw [toList_call, List.getLast?_append_of_ne_nil _ (by simp),
    List.getLast?_append_of_ne_nil _ (by simp), List.getLast?_append_of_ne_nil _ (by simp)]
  cases d with
  | java => exact .inr rfl
  | kotlin => exact .inl rfl

theorem onOneLine_call (h : '\n' ∉ f.family.toList) (d : Dialect) :
    OnOneLine (call f.family f.resourceId d).toList := by
  refine ⟨feed_not_mem_call h d, ?_⟩
  rcases getLast?_call f.family f.resourceId d with hlast | hlast
  · rw [hlast]
    decide
  · rw [hlast]
    decide

/-- What every call begins with. -/
def opening : List Char := "ReactFontManager.getInstance().addCustomFont(this, \"".toList

theorem opening_prefix_call (family resourceId : String) (d : Dialect) :
    ∃ rest, (call family resourceId d).toList = opening ++ rest := by
  unfold call
  simp only [String.toList_append, List.append_assoc]
  exact ⟨_, rfl⟩

theorem trim_call (family resourceId : String) (d : Dialect) :
    Unicode.trim (call family resourceId d).toList = (call family resourceId d).toList := by
  refine trim_eq_self (fun c hc => ?_) fun c hc => ?_
  · obtain ⟨rest, hrest⟩ := opening_prefix_call family resourceId d
    rw [hrest] at hc
    obtain rfl : 'R' = c := Option.some.inj hc
    cbv
  · rcases getLast?_call family resourceId d with hlast | hlast
    · obtain rfl := Option.some.inj (hlast.symm.trans hc)
      cbv
    · obtain rfl := Option.some.inj (hlast.symm.trans hc)
      cbv

theorem balanced_call (h : Balanced f.family.toList) (d : Dialect) :
    Balanced (call f.family f.resourceId d).toList := by
  have hid : Balanced f.resourceId.toList := balanced_of_not_mem
    (fun hmem => (isResource_of_mem_normalizeName hmem).ne (by decide) rfl)
    fun hmem => (isResource_of_mem_normalizeName hmem).ne (by decide) rfl
  have hend : Balanced (')' :: d.terminator.toList) := by
    cases d <;> decide
  have hneedle : Balanced (needle f.family).toList := by
    rw [toList_needle]
    exact .append (by decide) (.append h (by decide))
  rw [toList_call]
  exact .append (.append (by decide) hneedle) (.append (by decide) (.append hid hend))

/-! ## Heads and imports -/

theorem anchorPattern_of_any {a : Anchor} {q : Pattern → Bool} (h : (a.pattern? d).any q = true) :
    ∃ p, Body.anchorPattern d a = .ok p ∧ q p = true := by
  obtain ⟨p, hp, hq⟩ := (Option.any_eq_true _ _).1 h
  exact ⟨p, by rw [Body.anchorPattern, hp], hq⟩

/-- The heads that the application class and its method are found by. -/
def heads : List Anchor :=
  [.classHead Layout.applicationClass, .methodHead Linker.registerMethod]

/-- Behind a line break and the opening of a call, no head can go on. -/
theorem dead_opening : ∀ d ∈ [Dialect.java, .kotlin], ∀ a ∈ heads,
    ∀ newline ∈ [['\n'], ['\r', '\n']], (a.pattern? d).any (fun p =>
      p.isLocal && Pattern.dead (newline ++ Body.indent ++ opening) p.residuals) = true := by
  decide +kernel

theorem mem_dialects (d : Dialect) : d ∈ [Dialect.java, .kotlin] := by
  cases d <;> decide

/-- No match of a head runs into a call that is written on a line of its own. -/
theorem stops_call {a : Anchor} {p : Pattern} (ha : a ∈ heads)
    (hp : Body.anchorPattern d a = .ok p) (b : Body) (family resourceId : String) :
    p.isLocal = true ∧ p.Stops (b.newline ++ Body.indent ++ (call family resourceId d).toList) := by
  have hnewline : b.newline ∈ [['\n'], ['\r', '\n']] := by
    rcases b.newline_cases with h | h
    · rw [h]
      decide
    · rw [h]
      decide
  obtain ⟨p', hp', hdead⟩ := anchorPattern_of_any (dead_opening d (mem_dialects d) a ha _ hnewline)
  obtain rfl := Except.ok.inj (hp.symm.trans hp')
  obtain ⟨hlocal, hdead⟩ := (Bool.and_eq_true _ _).mp hdead
  obtain ⟨rest, hrest⟩ := opening_prefix_call family resourceId d
  rw [hrest, ← List.append_assoc]
  exact ⟨hlocal, Pattern.stops_of_dead hlocal hdead rest⟩

theorem import_avoids : ∀ d ∈ [Dialect.java, .kotlin],
    ((Anchor.importOf managerImport).pattern? d).any
      (fun p => p.avoids '\x7b' && (p.ends []).isEmpty) = true := by
  decide +kernel

/-! ## One call -/

/-- In a text the body of the method is found by heads that end in front of it. -/
def Opened (d : Dialect) (s : List Char) (b : Body) : Prop :=
  ∃ cp mp ch mh, Body.anchorPattern d (.classHead Layout.applicationClass) = .ok cp ∧
    Body.anchorPattern d (.methodHead Linker.registerMethod) = .ok mp ∧ Body.Located cp mp s b ch mh

/-- A text in which families can be registered for good: the body of the method is found by heads
that end in front of it, and the import stands in front of it. -/
structure Ready (d : Dialect) (text : String) (b : Body) : Prop where
  opened : Opened d text.toList b
  imported : ∃ p, Body.anchorPattern d (.importOf managerImport) = .ok p ∧
    p.occursIn b.before = true

variable {text patched anchor : String} {b : Body}

theorem Opened.locate (h : Opened d text.toList b) :
    Body.locate text Layout.applicationClass Linker.registerMethod d = .ok b := by
  obtain ⟨cp, mp, ch, mh, hcp, hmp, hb⟩ := h
  exact Body.locate_of_located hcp hmp hb

theorem Opened.locate_ofList {s : List Char} (h : Opened d s b) :
    Body.locate (String.ofList s) Layout.applicationClass Linker.registerMethod d = .ok b :=
  Opened.locate (by rwa [String.toList_ofList])

theorem Opened.text_eq {s : List Char} (h : Opened d s b) :
    s = b.before ++ (b.inside ++ b.after) := by
  obtain ⟨cp, mp, ch, mh, -, -, hb⟩ := h
  exact hb.text_eq.symm

/-- A call as it is written into a body. -/
def line (newline : List Char) (f : FontFamily) (d : Dialect) : List Char :=
  newline ++ Body.indent ++ (call f.family f.resourceId d).toList

/-- A call that is written into a body on a line of its own leaves the body where it was. -/
theorem Opened.insert {s head tail : List Char} (h : Opened d s b)
    (hbalanced : Balanced f.family.toList) (hinside : b.inside = head ++ tail) :
    Opened d (b.before ++ (head ++ line b.newline f d ++ tail ++ b.after))
      ⟨b.before, head ++ line b.newline f d ++ tail, b.after⟩ := by
  obtain ⟨cp, mp, ch, mh, hcp, hmp, hb⟩ := h
  obtain ⟨hclocal, hcstops⟩ := stops_call (by decide) hcp b f.family f.resourceId
  obtain ⟨hmlocal, hmstops⟩ := stops_call (by decide) hmp b f.family f.resourceId
  have hx : Balanced (line b.newline f d) := by
    refine .append (.append ?_ (by decide)) (balanced_call hbalanced d)
    rcases b.newline_cases with hline | hline
    · rw [hline]
      decide
    · rw [hline]
      decide
  obtain ⟨ch', mh', hb'⟩ := hb.insert hclocal hcstops hmlocal hmstops hx hinside
  exact ⟨cp, mp, ch', mh', hcp, hmp, hb'⟩

/-- What registers a family, on the line after another one. -/
def registration (anchor : String) (f : FontFamily) (d : Dialect) : Operation :=
  .insertStatement Layout.applicationClass Linker.registerMethod (call f.family f.resourceId d)
    (some anchor)

theorem run_registration (h : Body.locate text Layout.applicationClass Linker.registerMethod d =
    .ok b) (anchor : String) (f : FontFamily) :
    (registration anchor f d).run text d = b.insert (call f.family f.resourceId d) (some anchor) := by
  change insertInMethod text _ _ _ _ d = _
  rw [insertInMethod, h]
  rfl

namespace Ready

/-- A call that is in the body is found there. -/
theorem run_registration (h : Ready d text b)
    (hcall : (call f.family f.resourceId d).toList <:+: b.inside) (anchor : String) :
    (registration anchor f d).run text d = .ok .alreadyApplied := by
  rw [Registration.run_registration h.opened.locate]
  exact Body.insert_of_infix (by rwa [trim_call])

/-- The import is found in front of the body. -/
theorem run_addImport (h : Ready d text b) :
    (Operation.addImport managerImport).run text d = .ok .alreadyApplied := by
  obtain ⟨p, hp, hoccurs⟩ := h.imported
  obtain ⟨cp, mp, ch, mh, -, -, hb⟩ := h.opened
  obtain ⟨p', hp', havoids⟩ := anchorPattern_of_any (import_avoids d (mem_dialects d))
  obtain rfl := Except.ok.inj (hp.symm.trans hp')
  obtain ⟨havoids, hnil⟩ := (Bool.and_eq_true _ _).mp havoids
  obtain ⟨head, -, hbefore, -⟩ := Body.firstIn?_eq_some_iff.1 hb.body
  rw [hbefore] at hoccurs
  have htext := hb.text_eq
  rw [hbefore, List.append_assoc] at htext
  have himport := Pattern.occursIn_append_of_avoids havoids (List.isEmpty_iff.1 hnil) hoccurs
    (b.inside ++ b.after)
  change AndroidFonts.addImport text managerImport d = _
  rw [AndroidFonts.addImport, hp]
  simp only [Bind.bind, Except.bind]
  rw [if_pos (htext ▸ himport)]
  rfl

/-- Registering a family leaves the body where it was, with the call and with all that it held. -/
theorem insertion {patch : TextPatch} (h : Ready d text b)
    (hbalanced : Balanced f.family.toList)
    (hrun : (registration anchor f d).run text d = .ok patch) :
    ∃ b', Ready d (patch.textOr text) b' ∧
      (call f.family f.resourceId d).toList <:+: b'.inside ∧
      ∀ s, OnOneLine s → s <:+: b.inside → s <:+: b'.inside := by
  rw [Registration.run_registration h.opened.locate] at hrun
  cases patch with
  | alreadyApplied =>
    have hin := Body.infix_of_insert_alreadyApplied hrun
    rw [trim_call] at hin
    exact ⟨b, h, hin, fun _ _ hs => hs⟩
  | applied patched =>
    obtain ⟨head, tail, hpoint, hpatched⟩ := Body.insert_eq_applied hrun
    obtain ⟨hinside, htail⟩ := Body.insertionPoint_eq_ok hpoint
    refine ⟨⟨b.before, head ++ line b.newline f d ++ tail, b.after⟩, ⟨?_, h.imported⟩, ?_,
      fun s hs hin => ?_⟩
    · rw [TextPatch.textOr, hpatched]
      exact h.opened.insert hbalanced hinside
    · exact ⟨head ++ (b.newline ++ Body.indent), tail, by simp [line]⟩
    · exact Body.infix_of_inserted hs.1 hs.2 _ htail (hinside ▸ hin)

end Ready

/-! ## All calls -/

/-- Registering families one after the other leaves a body that holds all their calls. -/
theorem Ready.registrations {families : List FontFamily} {file : Path} (h : Ready d text b)
    (hnames : ∀ f ∈ families, '\n' ∉ f.family.toList ∧ Balanced f.family.toList)
    (hok : ∀ x ∈ Operation.outcomes d text
      ((Linker.registrations d file anchor families).map (·.operation)), ∃ patch, x = .ok patch) :
    ∃ b', Ready d (Operation.finalText d text
        ((Linker.registrations d file anchor families).map (·.operation))) b' ∧
      (∀ f ∈ families, (call f.family f.resourceId d).toList <:+: b'.inside) ∧
      ∀ s, OnOneLine s → s <:+: b.inside → s <:+: b'.inside := by
  induction families generalizing text anchor b with
  | nil => exact ⟨b, h, nofun, fun _ _ hs => hs⟩
  | cons f families ih =>
    change ∀ x ∈ (registration anchor f d).run text d :: Operation.outcomes d
      (Operation.textAfter text ((registration anchor f d).run text d))
      ((Linker.registrations d file (call f.family f.resourceId d) families).map (·.operation)),
      ∃ patch, x = .ok patch at hok
    obtain ⟨patch, hpatch⟩ := hok _ List.mem_cons_self
    obtain ⟨hname, hbalanced⟩ := hnames f List.mem_cons_self
    obtain ⟨b₁, h₁, hcall, hkeep⟩ := h.insertion hbalanced hpatch
    rw [hpatch] at hok
    obtain ⟨b', h', hcalls, hkeep'⟩ := ih h₁ (fun f hf => hnames f (List.mem_cons_of_mem _ hf))
      fun x hx => hok x (List.mem_cons_of_mem _ hx)
    refine ⟨b', ?_, fun g hg => ?_, fun s hs hin => hkeep' s hs (hkeep s hs hin)⟩
    · change Ready d (Operation.finalText d (Operation.textAfter text
        ((registration anchor f d).run text d)) _) b'
      rw [hpatch]
      exact h'
    · rcases List.mem_cons.1 hg with rfl | hg
      · exact hkeep' _ (onOneLine_call hname d) hcall
      · exact hcalls g hg

theorem length_registrations (d : Dialect) (file : Path) (anchor : String)
    (families : List FontFamily) :
    (Linker.registrations d file anchor families).length = families.length := by
  induction families generalizing anchor with
  | nil => rfl
  | cons f families ih => rw [Linker.registrations, List.length_cons, ih, List.length_cons]

theorem mem_registrations {families : List FontFamily} {file : Path} {p : SourcePatch}
    (h : p ∈ Linker.registrations d file anchor families) :
    ∃ f ∈ families, ∃ anchor, p.operation = registration anchor f d := by
  induction families generalizing anchor with
  | nil => cases h
  | cons f families ih =>
    rcases List.mem_cons.1 h with rfl | h
    · exact ⟨f, List.mem_cons_self, anchor, rfl⟩
    · obtain ⟨g, hg, hop⟩ := ih h
      exact ⟨g, List.mem_cons_of_mem _ hg, hop⟩

/-- Where the import and all the calls were written or found, in a text that was ready for the calls
once the import had been seen to, doing it all again finds everything done. -/
theorem run_again {families : List FontFamily} {file : Path}
    (hready : Ready d (Operation.textAfter text
      ((Operation.addImport managerImport).run text d)) b)
    (hnames : ∀ f ∈ families, '\n' ∉ f.family.toList ∧ Balanced f.family.toList)
    (hok : ∀ x ∈ Operation.outcomes d text (.addImport managerImport ::
      (Linker.registrations d file anchor families).map (·.operation)), ∃ patch, x = .ok patch) :
    ∀ op ∈ Operation.addImport managerImport ::
        (Linker.registrations d file anchor families).map (·.operation),
      op.run (Operation.finalText d text (.addImport managerImport ::
        (Linker.registrations d file anchor families).map (·.operation))) d =
          .ok .alreadyApplied := by
  rw [Operation.outcomes_cons] at hok
  obtain ⟨b', hready', hcalls, -⟩ := hready.registrations hnames
    fun x hx => hok x (List.mem_cons_of_mem _ hx)
  intro op hop
  rw [Operation.finalText_cons]
  rcases List.mem_cons.1 hop with rfl | hop
  · exact hready'.run_addImport
  · obtain ⟨p, hp, rfl⟩ := List.mem_map.1 hop
    obtain ⟨f, hf, anchor', hp'⟩ := mem_registrations hp
    rw [hp']
    exact hready'.run_registration (hcalls f hf) anchor'

/-! ## A first run, computed -/

/-- The body of a text, if its heads end in front of it. -/
def openBody? (d : Dialect) (s : List Char) : Option Body := do
  let cp ← (Anchor.classHead Layout.applicationClass).pattern? d
  let mp ← (Anchor.methodHead Linker.registerMethod).pattern? d
  let ch ← cp.find? s
  let mh ← (mp.findAll s).find? fun m => ch.start < m.start
  let b ← Body.firstIn? mh.before (mh.matched ++ mh.after)
  if (ch.before ++ ch.matched).isPrefixOf b.before && (mh.before ++ mh.matched).isPrefixOf b.before
  then some b else none

theorem opened_of_openBody? {s : List Char} (h : openBody? d s = some b) : Opened d s b := by
  obtain ⟨cp, hcp, h⟩ := Option.bind_eq_some_iff.1 h
  obtain ⟨mp, hmp, h⟩ := Option.bind_eq_some_iff.1 h
  obtain ⟨ch, hch, h⟩ := Option.bind_eq_some_iff.1 h
  obtain ⟨mh, hmh, h⟩ := Option.bind_eq_some_iff.1 h
  obtain ⟨b', hb, h⟩ := Option.bind_eq_some_iff.1 h
  obtain ⟨hclear, hsame⟩ := Option.ite_none_right_eq_some.1 h
  cases Option.some.inj hsame
  simp only [Bool.and_eq_true, List.isPrefixOf_iff_prefix] at hclear
  exact ⟨cp, mp, ch, mh, by rw [Body.anchorPattern, hcp], by rw [Body.anchorPattern, hmp],
    hch, hmh, hb, hclear.1, hclear.2⟩

/-- What the import and the call of one family make of a text that has neither. -/
structure FirstRun where
  importPattern : Pattern
  /-- The text with the import. -/
  imported : List Char
  /-- The body in that text. -/
  body : Body
  /-- The text with the call, too. -/
  registered : List Char

/-- A first run over a text, on its characters. -/
def firstRun? (d : Dialect) (anchor : String) (f : FontFamily) (s : List Char) :
    Option FirstRun := do
  let ip ← (Anchor.importOf managerImport).pattern? d
  let pp ← Anchor.package.pattern? d
  let m ← pp.find? s
  let imported := m.before ++ m.matched ++ ['\n', '\n'] ++
    (d.importStatement managerImport).toList ++ m.after
  let b ← openBody? d imported
  let parts ← (b.insertionPoint (Body.anchorOf (some anchor))).toOption
  let code := (call f.family f.resourceId d).toList
  if ip.occursIn s || occursIn code b.inside then none
  else some ⟨ip, imported, b,
    b.before ++ parts.1 ++ b.newline ++ Body.indent ++ code ++ parts.2 ++ b.after⟩

theorem eq_ok_of_toOption {ε α : Type} {x : Except ε α} {a : α} (h : x.toOption = some a) :
    x = .ok a := by
  cases x with
  | error e => cases h
  | ok b => rw [Option.some.inj h]

/-- A first run is what the operations come to. -/
theorem of_firstRun? {x : FirstRun} (h : firstRun? d anchor f text.toList = some x) :
    Body.anchorPattern d (.importOf managerImport) = .ok x.importPattern ∧
      (Operation.addImport managerImport).run text d =
        .ok (.applied (String.ofList x.imported)) ∧
      Opened d x.imported x.body ∧
      (registration anchor f d).run (String.ofList x.imported) d =
        .ok (.applied (String.ofList x.registered)) := by
  obtain ⟨ip, hip, h⟩ := Option.bind_eq_some_iff.1 h
  obtain ⟨pp, hpp, h⟩ := Option.bind_eq_some_iff.1 h
  obtain ⟨m, hm, h⟩ := Option.bind_eq_some_iff.1 h
  obtain ⟨b, hb, h⟩ := Option.bind_eq_some_iff.1 h
  obtain ⟨parts, hparts, h⟩ := Option.bind_eq_some_iff.1 h
  obtain ⟨hnew, hsame⟩ := Option.ite_none_left_eq_some.1 h
  cases Option.some.inj hsame
  simp only [Bool.or_eq_true, not_or, Bool.not_eq_true] at hnew
  have hip' : Body.anchorPattern d (.importOf managerImport) = .ok ip := by
    rw [Body.anchorPattern, hip]
  have hpp' : Body.anchorPattern d .package = .ok pp := by rw [Body.anchorPattern, hpp]
  have hopened := opened_of_openBody? hb
  refine ⟨hip', ?_, hopened, ?_⟩
  · change AndroidFonts.addImport text managerImport d = _
    rw [AndroidFonts.addImport, hip', hpp']
    simp only [Bind.bind, Except.bind, hnew.1, hm, Bool.false_eq_true, if_false]
    rfl
  · rw [run_registration hopened.locate_ofList, Body.insert, trim_call, if_neg (by simp [hnew.2]),
      eq_ok_of_toOption hparts]
    rfl

end Registration

end AndroidFonts
