/-
# `AndroidFonts.Proofs.Link.Described` — descriptors that need nothing more

A family is described in a tree (`Linker.Described`) if its path leads to a file that holds a
descriptor with its files, just as a run writes it.  The step of a family brings this about
(`Linker.turned_of_runEdit`), and the steps of the other families keep it (`Described.of_turned`):
their paths lie in the same directory, so none of them takes a way from another, and one that leads to
the same file agrees about the fonts.  Families that are described have nothing to do
(`Linker.linkDescriptors_of_described`).

What the step of a family needs for this is its `Turn`.  It is asked for in the tree that the steps
before it have left, since a path may lead elsewhere, or to another text, at the beginning of a run.
-/
import AndroidFonts.Proofs.Link.Descriptors
import AndroidFonts.Proofs.Link.Rehearsal

namespace AndroidFonts

open FileTree

namespace StepResult

/-- Whether a step found its work done. -/
def isQuiet (r : StepResult) : Bool :=
  match r.result with
  | .ok (.alreadyApplied _) => true
  | _ => false

/-- Whether a step did its work, or found it done. -/
def isDone (r : StepResult) : Bool :=
  match r.result with
  | .ok (.applied _) => true
  | .ok (.alreadyApplied _) => true
  | _ => false

end StepResult

/-! ## Descriptors -/

namespace Linker

variable {t t' u : FileTree} {k : Linker} {f g : FontFamily} {e : FileEdit} {r z : Location}
  {d old : Descriptor} {families : List FontFamily} {results : List StepResult}

/-- The path of a family leads to an accepted file, which holds a descriptor with the files of the
family as a run writes it. -/
structure Described (k : Linker) (t : FileTree) (f : FontFamily) (r : Location) (d : Descriptor) :
    Prop where
  leads : t.locate (k.descriptorPath f) = .ok r
  accepted : k.guard.check r = .ok r
  allowed : Allowed r.path
  holds : t.get? r = some (.file (.text d.toXml))
  plain : d.Plain
  sound : d.Sound
  merged : d.merge f.files = d

theorem locate_of_readText {s : String} (hr : t.Reached r) (h : t.readText r.path = .ok s) :
    t.locate r.path = .ok r ∧ Allowed r.path ∧ t.get? r = some (.file (.text s)) := by
  obtain ⟨m, hm, hholds⟩ := readText_eq_ok_iff.1 h
  obtain ⟨hallowed, n, -, hway⟩ := (locate_path_eq_ok_iff hr.named).1 hm
  obtain ⟨-, rfl⟩ := hr.leads.unique hway
  exact ⟨hm, hallowed, hholds⟩

theorem readText_of_file {s : String} (ht : t.IsTree) (hr : t.get? r = some (.file (.text s)))
    (hallowed : Allowed r.path) : t.readText r.path = .ok s := by
  have hreached := ht.reached (holds_of_file hr)
  exact readText_eq_ok_iff.2 ⟨r, (locate_path_eq_ok_iff hreached.named).2
    ⟨hallowed, 0, Nat.zero_le _, hreached.leads⟩, hr⟩

theorem validate_of_locate (hroot : k.guard.root.Named)
    (hr : t.locate (k.descriptorPath f) = .ok r) (hcheck : k.guard.check r = .ok r) :
    k.guard.validate t (k.descriptorPath f) = .ok r := by
  refine Guard.validate_eq_ok_iff.2 ⟨?_, hcheck⟩
  rw [Guard.resolve, spelling_descriptorPath hroot, ← descriptorPath_eq hroot]
  exact Guard.resolveFrom_of_locate hr

theorem locate_of_validate (hroot : k.guard.root.Named)
    (hr : k.guard.validate t (k.descriptorPath f) = .ok r)
    (hpath : t.hasPath (k.descriptorPath f) = true) : t.locate (k.descriptorPath f) = .ok r := by
  obtain ⟨l, hl⟩ := hasPath_iff.1 hpath
  obtain ⟨hres, -⟩ := Guard.validate_eq_ok_iff.1 hr
  rw [Guard.resolve, spelling_descriptorPath hroot, ← descriptorPath_eq hroot,
    Guard.resolveFrom_of_locate hl] at hres
  rw [hl, Except.ok.inj hres]

/-- The edit of a family that is described has nothing to do. -/
theorem Described.descriptorEdit (h : Described k t f r d) (ht : t.IsTree)
    (hroot : k.guard.root.Named) :
    k.descriptorEdit t f = .ok ⟨r.path, some d.toXml, d.toXml⟩ := by
  rw [descriptorEdit_of_ok (validate_of_locate hroot h.leads h.accepted)
    (readText_of_file ht h.holds h.allowed) (Descriptor.ofXml_toXml h.plain h.sound), h.merged]

/-- An edit that comes upon a file that is described adds to what is described there. -/
theorem Base.eq_of_described (hbase : Base e old) (h : Described k t g r d) (ht : t.IsTree)
    (he : k.descriptorEdit t f = .ok e)
    (hr : k.guard.validate t (k.descriptorPath f) = .ok r) : old = d := by
  have hread := Descriptor.ofXml_toXml h.plain h.sound
  have hedit := descriptorEdit_of_ok hr (readText_of_file ht h.holds h.allowed) hread
  obtain rfl := Except.ok.inj (he.symm.trans hedit)
  rcases hbase with ⟨text, hbefore, hd⟩ | ⟨hnone, -⟩
  · obtain rfl := Option.some.inj hbefore
    exact Except.ok.inj (hd.symm.trans hread)
  · cases hnone

/-- The tree that the descriptor steps of a run leave. -/
def described (k : Linker) (t : FileTree) (families : List FontFamily) : FileTree :=
  (k.linkDescriptors .write t families).2

/-- What the turn of a family in a run needs: the texts of a descriptor that is there are such that
attribute values keep them, and once it is written the path of the family leads to it. -/
structure Turn (k : Linker) (t : FileTree) (f : FontFamily) : Prop where
  plain : ∀ e text d, k.descriptorEdit t f = .ok e → e.before = some text →
    Descriptor.ofXml text = .ok d → Xml.Plain d.namespaceUri ∧ ∀ x ∈ d.entries, Xml.Plain x.fontRef
  reached : (k.described t [f]).hasPath (k.descriptorPath f) = true

/-- The step of a family has led from one tree to another. -/
structure Turned (k : Linker) (t : FileTree) (f : FontFamily) (e : FileEdit) (r : Location)
    (old : Descriptor) (t' : FileTree) : Prop where
  planned : k.descriptorEdit t f = .ok e
  accepted : k.guard.validate t (k.descriptorPath f) = .ok r
  base : Base e old
  touched : Touched r t t'
  described : Described k t' f r (old.merge f.files)

/-- The first family of some takes its turn, then the others. -/
theorem described_cons (he : k.descriptorEdit t f = .ok e) :
    k.described t (f :: families) = k.described (runEdit .write t e).2 families := by
  unfold described linkDescriptors
  cases hrun : runEdits k.descriptorEdit (fun f => "font-family-" ++ f.resourceId) .write
      (runEdit .write t e).2 families with
  | mk result v =>
    cases result with
    | error cause => rw [runEdits_cons_of_error he hrun]
    | ok rs => rw [runEdits_cons_of_ok he hrun]

theorem described_singleton (he : k.descriptorEdit t f = .ok e) :
    k.described t [f] = (runEdit .write t e).2 := described_cons he

/-- A descriptor step that was done found its text there, or put its file in. -/
theorem apply_of_isDone {id : String} (h : (StepResult.mk id (runEdit .write t e).1).isDone = true) :
    (e.isNoop = true ∧ (runEdit .write t e).2 = t) ∨
      ∃ o, e.apply t = (.ok o, (runEdit .write t e).2) := by
  by_cases hnoop : e.isNoop = true
  · exact .inl ⟨hnoop, by rw [runEdit_of_noop hnoop]⟩
  · rw [runEdit, if_neg hnoop, if_neg (by decide)] at h ⊢
    cases happly : e.apply t with
    | mk result v =>
      rw [happly] at h
      rcases result with cause | o
      · cases h
      · exact .inr ⟨o, by cases o <;> rfl⟩

theorem readText_of_isNoop (he : k.descriptorEdit t f = .ok e) (h : e.isNoop = true) :
    t.readText e.file = .ok e.after := by
  have hbefore : e.before = some e.after := of_decide_eq_true h
  obtain ⟨r, -, -, ⟨text, d, hread, -, htext, -⟩ | ⟨-, hnone, -⟩⟩ := descriptorEdit_eq_ok he
  · obtain rfl := Option.some.inj (hbefore.symm.trans htext)
    exact hread
  · cases hbefore.symm.trans hnone

theorem touched_of_apply {o : EditOutcome} (ht : t.IsTree) (hnamed : r.Named)
    (he : e.file = r.path)
    (hread : (∃ s, t.readText r.path = .ok s) ∨ t.readText r.path = .error .notFound)
    (hreached : t'.Reached r) (h : e.apply t = (.ok o, t')) : Touched r t t' := by
  rcases FileEdit.apply_eq_ok h with ⟨rfl, -⟩ | hinstall
  · exact .refl ht
  obtain ⟨d, name, rfl⟩ :=
    (List.eq_nil_or_concat' r).resolve_left (Guard.ne_nil_of_readText hread)
  obtain ⟨m, u, hinstalled, rfl⟩ := FileEdit.install_eq_ok ht hnamed he hinstall
  exact (Guard.touched_of_installed hnamed hinstalled hreached).2

/-- The step of a family that was done brings about what it is for. -/
theorem turned_of_runEdit {id : String} (ht : t.IsTree) (hroot : k.guard.root.Named)
    (hturn : k.Turn t f)
    (hfiles : ∀ x ∈ f.files, Xml.Plain (fontResourceRef x.name) ∧ x.weight < Text.shortLimit)
    (he : k.descriptorEdit t f = .ok e)
    (hdone : (StepResult.mk id (runEdit .write t e).1).isDone = true) :
    ∃ r old, Turned k t f e r old (runEdit .write t e).2 := by
  obtain ⟨r, old, hr, hfile, hread, hbase, hafter⟩ := base_of_descriptorEdit he
  obtain ⟨hnamed, hcheck⟩ := Guard.named_of_validate hr
  obtain ⟨hsound, hxml, hxmlns⟩ := hbase.sound
  have hplain : old.Plain := by
    rcases hbase with ⟨text, hbefore, hd⟩ | ⟨-, rfl⟩
    · obtain ⟨huri, hrefs⟩ := hturn.plain e text old he hbefore hd
      exact ⟨huri, hxml, hxmlns, hrefs⟩
    · exact Descriptor.plain_empty
  have hreached := hturn.reached
  rw [described_singleton he] at hreached
  have hnew : (runEdit .write t e).2.readText r.path = .ok e.after ∧
      k.guard.validate (runEdit .write t e).2 (k.descriptorPath f) = .ok r := by
    rcases apply_of_isDone hdone with ⟨hnoop, hsame⟩ | ⟨o, happly⟩
    · rw [hsame]
      exact ⟨hfile ▸ readText_of_isNoop he hnoop, hr⟩
    · exact Guard.validate_of_apply ht (named_descriptorPlace hroot) (spelling_descriptorPath hroot)
        hr hfile hread happly
  obtain ⟨htext, hvalid⟩ := hnew
  have hleads := locate_of_validate hroot hvalid hreached
  have hr' : (runEdit .write t e).2.Reached r := by
    rw [descriptorPath_eq hroot] at hleads
    exact reached_of_resolve (Location.isAbsolute_path _) (resolve_of_locate hleads)
  obtain ⟨-, hallowed, hholds⟩ := locate_of_readText hr' htext
  have htouched : Touched r t (runEdit .write t e).2 := by
    rcases apply_of_isDone hdone with ⟨-, hsame⟩ | ⟨o, happly⟩
    · rw [hsame]
      exact .refl ht
    · exact touched_of_apply ht hnamed hfile hread hr' happly
  refine ⟨r, old, he, hr, hbase, htouched, hleads, hcheck, hallowed, hafter ▸ hholds,
    hplain.merge fun x hx => (hfiles x hx).1, hsound.merge fun x hx => (hfiles x hx).2,
    Descriptor.merge_merge_self hsound.nodup⟩

/-- The step of a family leaves the ways to the other descriptors. -/
theorem Turned.locate (h : Turned k t f e r old t') (ht : t.IsTree) (hroot : k.guard.root.Named)
    (hz : t.locate (k.descriptorPath g) = .ok z) : t'.locate (k.descriptorPath g) = .ok z := by
  obtain ⟨hres, -⟩ := Guard.validate_eq_ok_iff.1 h.accepted
  rw [Guard.resolve, spelling_descriptorPath hroot] at hres
  have hleads := h.described.leads
  rw [descriptorPath_eq hroot] at hleads hz ⊢
  have hlength : 1 ≤ (k.descriptorPlace f).length := by simp [descriptorPlace]
  exact Guard.locate_of_touched ht h.touched (named_descriptorPlace hroot)
    (hlength.trans (Guard.length_le_pieces_path (named_descriptorPlace hroot))) hres hleads
    (named_descriptorPlace hroot) hz

/-- The step of a family leaves the other descriptors described, if those in the same file agree. -/
theorem Described.of_turned (hg : Described k t g z d) (h : Turned k t f e r old t')
    (ht : t.IsTree) (hroot : k.guard.root.Named)
    (hagree : z = r → Descriptor.Agree g.files f.files) : ∃ d', Described k t' g z d' := by
  have hleads := h.locate ht hroot hg.leads
  by_cases hz : z = r
  · subst hz
    obtain rfl := h.base.eq_of_described hg ht h.planned h.accepted
    exact ⟨_, hleads, hg.accepted, hg.allowed, h.described.holds, h.described.plain,
      h.described.sound, Descriptor.merge_merge_of_agree hg.sound.nodup hg.merged (hagree rfl)⟩
  · refine ⟨d, hleads, hg.accepted, hg.allowed, ?_, hg.plain, hg.sound, hg.merged⟩
    rcases h.touched.get? z with heq | ⟨hnone, -, -⟩ | ⟨heq, -, -⟩
    · rw [heq, hg.holds]
    · rw [hg.holds] at hnone
      cases hnone
    · exact absurd heq hz

/-! ## All descriptors -/

/-- The turns of some families, each in the tree that the ones before it have left. -/
def Turns (k : Linker) (t : FileTree) (families : List FontFamily) : Prop :=
  ∀ before f after, families = before ++ f :: after →
    k.Turn (k.described t before) f

/-- The first step of a run of descriptor steps that were done, and the rest of the run. -/
theorem linkDescriptors_cons_eq_ok (ht : t.IsTree) (hroot : k.guard.root.Named)
    (hturns : k.Turns t (f :: families))
    (hfiles : ∀ g ∈ f :: families, ∀ x ∈ g.files,
      Xml.Plain (fontResourceRef x.name) ∧ x.weight < Text.shortLimit)
    (h : k.linkDescriptors .write t (f :: families) = (.ok results, u))
    (hdone : ∀ r ∈ results, r.isDone = true) :
    ∃ e r old t' rest, Turned k t f e r old t' ∧ k.Turns t' families ∧
      k.linkDescriptors .write t' families = (.ok rest, u) ∧ ∀ r ∈ rest, r.isDone = true := by
  obtain ⟨e, rest, he, hrest, rfl⟩ := runEdits_cons_eq_ok h
  obtain ⟨r, old, hturned⟩ := turned_of_runEdit ht hroot (hturns [] f families rfl)
    (hfiles f List.mem_cons_self) he (hdone _ List.mem_cons_self)
  refine ⟨e, r, old, _, rest, hturned, fun before g after heq => ?_, hrest,
    fun r hr => hdone r (List.mem_cons_of_mem _ hr)⟩
  have hturn := hturns (f :: before) g after (by rw [heq]; rfl)
  rwa [described_cons he] at hturn

section
variable {all : List FontFamily}

theorem locate_linkDescriptors (ht : t.IsTree) (hroot : k.guard.root.Named)
    (hturns : k.Turns t families)
    (hfiles : ∀ g ∈ families, ∀ x ∈ g.files,
      Xml.Plain (fontResourceRef x.name) ∧ x.weight < Text.shortLimit)
    (h : k.linkDescriptors .write t families = (.ok results, u))
    (hdone : ∀ r ∈ results, r.isDone = true) : u.IsTree ∧
    ∀ g z, t.locate (k.descriptorPath g) = .ok z → u.locate (k.descriptorPath g) = .ok z := by
  induction families generalizing t results with
  | nil =>
    obtain ⟨-, rfl⟩ := Prod.mk.inj h
    exact ⟨ht, fun _ _ hz => hz⟩
  | cons f families ih =>
    obtain ⟨e, r, old, t', rest, hturned, hturns', hrest, hdone'⟩ :=
      linkDescriptors_cons_eq_ok ht hroot hturns hfiles h hdone
    obtain ⟨hu, hways⟩ := ih hturned.touched.isTree hturns'
      (fun g hg => hfiles g (List.mem_cons_of_mem _ hg)) hrest hdone'
    exact ⟨hu, fun g z hz => hways g z (hturned.locate ht hroot hz)⟩

/-- A run of descriptor steps that were done leaves the families described, and those that were so
before, if families with one file agree. -/
theorem described_of_linkDescriptors (ht : t.IsTree) (hroot : k.guard.root.Named)
    (hturns : k.Turns t families)
    (hfiles : ∀ g ∈ families, ∀ x ∈ g.files,
      Xml.Plain (fontResourceRef x.name) ∧ x.weight < Text.shortLimit)
    (h : k.linkDescriptors .write t families = (.ok results, u))
    (hdone : ∀ r ∈ results, r.isDone = true) (hsub : families ⊆ all)
    (hagree : ∀ f ∈ all, ∀ g ∈ all, u.locate (k.descriptorPath f) = u.locate (k.descriptorPath g) →
      Descriptor.Agree f.files g.files) :
    (∀ f ∈ families, ∃ r d, Described k u f r d) ∧
      ∀ g ∈ all, ∀ z d, Described k t g z d → ∃ d', Described k u g z d' := by
  induction families generalizing t results with
  | nil =>
    obtain ⟨-, rfl⟩ := Prod.mk.inj h
    exact ⟨nofun, fun g _ z d hg => ⟨d, hg⟩⟩
  | cons f families ih =>
    obtain ⟨e, r, old, t', rest, hturned, hturns', hrest, hdone'⟩ :=
      linkDescriptors_cons_eq_ok ht hroot hturns hfiles h hdone
    have ht' := hturned.touched.isTree
    have hfiles' := fun g hg => hfiles g (List.mem_cons_of_mem f hg)
    obtain ⟨hnew, hkeep⟩ := ih ht' hturns' hfiles' hrest hdone'
      fun g hg => hsub (List.mem_cons_of_mem _ hg)
    have hf := hsub List.mem_cons_self
    obtain ⟨d', hd'⟩ := hkeep f hf r _ hturned.described
    refine ⟨fun g hg => ?_, fun g hg z d hd => ?_⟩
    · rcases List.mem_cons.1 hg with rfl | hg
      · exact ⟨r, d', hd'⟩
      · exact hnew g hg
    · have hz := hturned.locate ht hroot hd.leads
      obtain ⟨d₁, hd₁⟩ := hd.of_turned hturned ht hroot fun heq => hagree g hg f hf (by
        rw [(locate_linkDescriptors ht' hroot hturns' hfiles' hrest hdone').2 g z hz, hd'.leads,
          heq])
      exact hkeep g hg z d₁ hd₁

end

/-- A run of descriptor steps over families that are described finds nothing to do. -/
theorem linkDescriptors_of_described (ht : t.IsTree) (hroot : k.guard.root.Named)
    (h : ∀ f ∈ families, ∃ r d, Described k t f r d) :
    ∃ results, k.linkDescriptors .write t families = (.ok results, t) ∧
      ∀ r ∈ results, r.isQuiet = true := by
  induction families with
  | nil => exact ⟨[], rfl, nofun⟩
  | cons f families ih =>
    obtain ⟨rest, hrest, hquiet⟩ := ih fun g hg => h g (List.mem_cons_of_mem _ hg)
    obtain ⟨r, d, hd⟩ := h f List.mem_cons_self
    have hedit := hd.descriptorEdit ht hroot
    have hrun : runEdit .write t ⟨r.path, some d.toXml, d.toXml⟩ = _ :=
      runEdit_of_noop (decide_eq_true rfl)
    have hall : k.linkDescriptors .write t (f :: families) = _ :=
      runEdits_cons_of_ok hedit (by rw [hrun]; exact hrest)
    refine ⟨_, hall, fun x hx => ?_⟩
    rcases List.mem_cons.1 hx with rfl | hx
    · rw [hrun]
      rfl
    · exact hquiet x hx

end Linker

end AndroidFonts
