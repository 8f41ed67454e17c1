/-
# `AndroidFonts.Proofs.Link.Relinking` — linking a plan again

A run whose steps were all done leaves a project in which there is nothing left to do: the same run
again comes to `alreadyApplied` for every step and leaves the tree as it is (`Linker.link_again`).

The first run leaves the families described and the application file with the text that its patches
come to, so the second run finds the descriptors done and is a run of the same patches over that text
(`Linker.link_of_settling`).  What they come to then is a matter of text alone
(`Registration.run_again`).

What a plan and a project must be like for this is `Linker.Steady`.  Where an import that was written
is not found again, every run writes another one (`Linker.import_written_again`).
-/
import AndroidFonts.Proofs.Link.Described
import AndroidFonts.Proofs.Link.Modes
import AndroidFonts.Proofs.Plan.Validity
import AndroidFonts.Proofs.Source.Registration

namespace AndroidFonts

open FileTree

/-! ## The patches of one file -/

namespace Patching

variable {t : FileTree} {d : Dialect} {mode : RunMode} {l : Location} {file : Path}
  {found text id reason : String} {patches : List SourcePatch} {x : Except PatchError TextPatch}

theorem ids_planOutcomes (file : Path) (found : String) (patches : List SourcePatch) (d : Dialect) :
    (planOutcomes file found patches d).map Prod.fst = patches.map (·.id) :=
  List.map_fst_zip (by simp [Operation.length_outcomes])

theorem exists_mem_planOutcomes (file : Path)
    (h : x ∈ Operation.outcomes d found (patches.map (·.operation))) :
    ∃ id, (id, outcomeOf file x) ∈ planOutcomes file found patches d := by
  have hsnd : (planOutcomes file found patches d).map Prod.snd =
      (Operation.outcomes d found (patches.map (·.operation))).map (outcomeOf file) :=
    List.map_snd_zip (by simp [Operation.length_outcomes])
  have hmem := List.mem_map_of_mem (f := outcomeOf file) h
  rw [← hsnd] at hmem
  obtain ⟨y, hy, hsame⟩ := List.mem_map.1 hmem
  exact ⟨y.1, hsame ▸ hy⟩

theorem ok_of_isDone (h : (StepResult.mk id (.ok (outcomeOf file x))).isDone = true) :
    ∃ patch, x = .ok patch := by
  cases x with
  | ok patch => exact ⟨patch, rfl⟩
  | error e =>
    rw [outcomeOf] at h
    split at h <;> cases h

/-- A step that was done though its file could not be written had found its work done. -/
theorem alreadyApplied_of_isDone
    (h : (StepResult.mk id (.ok (unwritten reason (outcomeOf file x)))).isDone = true) :
    x = .ok .alreadyApplied := by
  cases x with
  | ok patch =>
    cases patch with
    | applied _ => cases h
    | alreadyApplied => rfl
  | error e =>
    rw [outcomeOf] at h
    split at h <;> cases h

theorem ids_resultsOf (d : Dialect) (l : Location) (found : String) (patches : List SourcePatch) :
    (resultsOf d l found patches).map (·.id) = patches.map (·.id) := by
  rw [resultsOf, List.map_map, ← ids_planOutcomes l.path found patches d]
  rfl

theorem resultsOf_cons (d : Dialect) (l : Location) (found : String) (p : SourcePatch) :
    resultsOf d l found (p :: patches) =
      ⟨p.id, .ok (outcomeOf l.path (p.operation.run found d))⟩ ::
        resultsOf d l (Operation.textAfter found (p.operation.run found d)) patches := rfl

theorem ok_of_resultsOf (h : ∀ r ∈ resultsOf d l found patches, r.isDone = true) :
    ∀ x ∈ Operation.outcomes d found (patches.map (·.operation)), ∃ patch, x = .ok patch := by
  intro x hx
  obtain ⟨id, hid⟩ := exists_mem_planOutcomes l.path hx
  exact ok_of_isDone (h _ (List.mem_map_of_mem hid))

/-- Patches of a file that were all done leave it with the text that they come to. -/
theorem runFile_of_isDone {c : Contents} (ht : t.IsTree) (hl : t.get? l = some (.file c))
    (hne : patches ≠ []) (hdone : ∀ r ∈ (runFile d .write t l patches).1, r.isDone = true) :
    ∃ found t', runFile d .write t l patches = (resultsOf d l found patches, t') ∧
      t.readText l.path = .ok found ∧
      (∀ x ∈ Operation.outcomes d found (patches.map (·.operation)), ∃ patch, x = .ok patch) ∧
      Alike t t' ∧ (∀ m, m ≠ l → t'.get? m = t.get? m) ∧
      t'.readText l.path = .ok (Operation.finalText d found (patches.map (·.operation))) := by
  cases hread : t.readText l.path with
  | error cause =>
    obtain ⟨p, ps, rfl⟩ := List.exists_cons_of_ne_nil hne
    rw [runFile_of_error hread] at hdone
    cases hdone _ List.mem_cons_self
  | ok found =>
    refine ⟨found, ?_⟩
    cases hnoop : (planEdit l.path found patches d).isNoop with
    | true =>
      have hrun : runFile d .write t l patches = _ := runFile_of_quiet hread (.inr hnoop)
      rw [hrun] at hdone
      have hsame : some found = some (Operation.finalText d found (patches.map (·.operation))) :=
        of_decide_eq_true hnoop
      exact ⟨t, hrun, rfl, ok_of_resultsOf hdone, .refl t, fun _ _ => rfl,
        hread.trans (congrArg _ (Option.some.inj hsame))⟩
    | false =>
      have hreached := ht.reached (holds_of_file hl)
      obtain ⟨m, hm, hfile, happly⟩ := FileEdit.apply_of_read (e := planEdit l.path found patches d)
        hreached.named rfl rfl hnoop hread (namesLink_of_file ht hl)
      obtain rfl := Except.ok.inj ((Linker.locate_of_readText hreached hread).1.symm.trans hm)
      by_cases hroom : ((Location.path l.dropLast).join temporaryName).isTooLong = true
      · -- all steps had found their work done, so there was nothing to write
        rw [if_pos hroom] at happly
        rw [runFile_of_refused hread hnoop happly] at hdone
        have hfinal : Operation.finalText d found (patches.map (·.operation)) = found :=
          Operation.finalText_of_outcomes fun x hx => by
            obtain ⟨id, hid⟩ := exists_mem_planOutcomes l.path hx
            exact alreadyApplied_of_isDone (hdone _ (List.mem_map_of_mem hid))
        have hquiet : (planEdit l.path found patches d).isNoop = true :=
          decide_eq_true (congrArg some hfinal.symm)
        rw [hquiet] at hnoop
        cases hnoop
      · rw [if_neg hroom] at happly
        have hrun := runFile_of_write hread hnoop happly
        rw [hrun] at hdone
        have hhindrance := hindrance?_of_ok happly
        have hcarried := Carried.of_put hhindrance hm hfile
        refine ⟨_, hrun, rfl, ok_of_resultsOf hdone, hcarried.alike,
          fun m hne => hcarried.other m fun e he _ hlocate => ?_,
          hcarried.named _ (List.mem_singleton_self _) hhindrance⟩
        rw [List.mem_singleton.1 he] at hlocate
        exact hne (Except.ok.inj (hlocate.symm.trans hm))

/-- The steps on a file that can be read and written are those on its text. -/
theorem fst_runFile_of_room (hnamed : l.Named) (hread : t.readText l.path = .ok found)
    (hlink : t.namesLink l.path = false)
    (hroom : ((Location.path l.dropLast).join temporaryName).isTooLong = false) :
    (runFile d .write t l patches).1 = resultsOf d l found patches := by
  cases hnoop : (planEdit l.path found patches d).isNoop with
  | true => rw [runFile_of_quiet hread (.inr hnoop)]
  | false =>
    obtain ⟨m, -, -, happly⟩ := FileEdit.apply_of_read (e := planEdit l.path found patches d)
      hnamed rfl rfl hnoop hread hlink
    rw [if_neg (by rw [hroom]; exact Bool.false_ne_true)] at happly
    rw [runFile_of_write hread hnoop happly]

theorem isDone_of_outcomes
    (h : ∀ x ∈ Operation.outcomes d found (patches.map (·.operation)), ∃ patch, x = .ok patch) :
    ∀ r ∈ resultsOf d l found patches, r.isDone = true := by
  intro r hr
  obtain ⟨⟨id, o⟩, hmem, rfl⟩ := List.mem_map.1 hr
  obtain ⟨x, hx, rfl⟩ := List.mem_map.1 (List.of_mem_zip hmem).2
  obtain ⟨patch, rfl⟩ := h x hx
  cases patch with
  | applied _ => rfl
  | alreadyApplied => rfl

/-- Patches of a file that find their work done leave everything as it is. -/
theorem runFile_of_alreadyApplied (mode : RunMode) (hread : t.readText l.path = .ok text)
    (h : ∀ op ∈ patches.map (·.operation), op.run text d = .ok .alreadyApplied) :
    runFile d mode t l patches = (resultsOf d l text patches, t) ∧
      ∀ r ∈ resultsOf d l text patches, r.isQuiet = true := by
  obtain ⟨hfinal, houtcomes⟩ := Operation.finalText_of_alreadyApplied h
  refine ⟨runFile_of_quiet hread (.inr (decide_eq_true (congrArg some hfinal.symm))),
    fun r hr => ?_⟩
  obtain ⟨⟨id, o⟩, hmem, rfl⟩ := List.mem_map.1 hr
  obtain ⟨x, hx, rfl⟩ := List.mem_map.1 (List.of_mem_zip hmem).2
  rw [houtcomes] at hx
  obtain ⟨-, -, rfl⟩ := List.mem_map.1 hx
  rfl

end Patching

/-! ## Valid plans -/

theorem LinkPlan.fonts_ne_nil {plan : LinkPlan} (hvalid : plan.isValid = true)
    (hpatches : plan.patches = []) : plan.fonts ≠ [] :=
  (isValid_iff.1 hvalid).nonempty.resolve_right fun hne => hne hpatches

/-- The weights of the files in a valid plan are weights of fonts. -/
theorem LinkPlan.isFontWeight_of_isValid {plan : LinkPlan} (hvalid : plan.isValid = true)
    {f : FontFamily} (hf : f ∈ plan.fonts) {x : FontFile} (hx : x ∈ f.files) :
    isFontWeight x.weight = true := by
  have hfamily := (isValid_iff.1 hvalid).fonts f hf
  exact isFontWeight_iff.2 (hfamily.files x hx).weight

namespace Linker

variable {t t' u : FileTree} {k : Linker} {f : FontFamily} {r : Location} {d : Descriptor}
  {plan : LinkPlan} {results : List StepResult}

theorem Described.alike (h : Described k t f r d) (halike : Alike t t')
    (hsame : t'.get? r = t.get? r) : Described k t' f r d where
  leads := (halike.locate_eq _).trans h.leads
  accepted := h.accepted
  allowed := h.allowed
  holds := hsame.trans h.holds
  plain := h.plain
  sound := h.sound
  merged := h.merged

/-- Families that are described have nothing to wait for. -/
theorem turns_of_described {families : List FontFamily} (ht : t.IsTree)
    (hroot : k.guard.root.Named) (h : ∀ f ∈ families, ∃ r d, Described k t f r d) :
    k.Turns t families := by
  have hstay : ∀ fs ⊆ families, k.described t fs = t := fun fs hfs => by
    obtain ⟨results, hrun, -⟩ := linkDescriptors_of_described ht hroot fun f hf => h f (hfs hf)
    rw [described, hrun]
  rintro before f after rfl
  have hf : f ∈ before ++ f :: after := by simp
  obtain ⟨r, d, hd⟩ := h f hf
  rw [hstay before (List.subset_append_left _ _)]
  refine ⟨fun e text old he hbefore hold => ?_, ?_⟩
  · obtain rfl := Except.ok.inj (he.symm.trans (hd.descriptorEdit ht hroot))
    obtain rfl := Option.some.inj hbefore
    obtain rfl := Except.ok.inj (hold.symm.trans (Descriptor.ofXml_toXml hd.plain hd.sound))
    exact ⟨hd.plain.uri, hd.plain.refs⟩
  · rw [hstay [f] (by simp)]
    exact hasPath_iff.2 ⟨r, hd.leads⟩

/-! ## The application file -/

/-- The patches that register families in the application file. -/
def applicationPatches (k : Linker) (l : Location) (families : List FontFamily) :
    List SourcePatch :=
  { id := "import-react-font-manager", file := l.path
    operation := .addImport Registration.managerImport } ::
    registrations k.dialect l.path ("super." ++ registerMethod ++ "()") families

/-- After the descriptors a run of a plan with no patches of its own runs the patches of the
application file. -/
theorem link_of_linkDescriptors {first : List StepResult} {l : Location} {c : Contents}
    (hpatches : plan.patches = []) (hne : plan.fonts ≠ [])
    (hfirst : k.linkDescriptors .write t plan.fonts = (.ok first, u)) (hu : u.IsTree)
    (hfile : k.applicationFile u = .ok l.path) (hl : u.get? l = some (.file c))
    (hcheck : k.guard.check l = .ok l) :
    k.link .write t plan = (.ok (first ++ (Patching.runFile k.dialect .write u l
        (k.applicationPatches l plan.fonts)).1),
      (Patching.runFile k.dialect .write u l (k.applicationPatches l plan.fonts)).2) := by
  have hreached := hu.reached (holds_of_file hl)
  have hfont : k.fontPatches u plan.fonts = .ok (k.applicationPatches l plan.fonts) :=
    fontPatches_of_ok hne hfile
  have hvalidate : ∀ p ∈ k.applicationPatches l plan.fonts, k.guard.validate u p.file = .ok l := by
    intro p hp
    have hsame := Except.ok.inj (hfile.symm.trans (file_of_mem_fontPatches hfont hp))
    rw [← hsame]
    exact (Guard.validate_path_iff hreached.named hcheck).2 hreached.settled
  have hrun : Patching.run k.guard k.dialect .write u
      (k.applicationPatches l plan.fonts ++ plan.patches) =
        Patching.runFile k.dialect .write u l (k.applicationPatches l plan.fonts) := by
    rw [hpatches, List.append_nil]
    exact Patching.run_of_forall (List.cons_ne_nil _ _) hvalidate
  rw [link_of_ok_ok hfirst hfont, hrun]

/-! ## Whole plans -/

/-- The descriptors of a plan settle in a project: the texts that are written are such that they are
read back, families with one descriptor agree about the fonts that they share, and no descriptor is
the application file. -/
structure Settling (k : Linker) (t : FileTree) (plan : LinkPlan) : Prop where
  turns : k.Turns t plan.fonts
  refs : ∀ f ∈ plan.fonts, ∀ x ∈ f.files, Xml.Plain (fontResourceRef x.name)
  agree : ∀ f ∈ plan.fonts, ∀ g ∈ plan.fonts,
    (k.described t plan.fonts).locate (k.descriptorPath f) =
      (k.described t plan.fonts).locate (k.descriptorPath g) → Descriptor.Agree f.files g.files
  apart : ∀ file, k.applicationFile (k.described t plan.fonts) = .ok file → ∀ f ∈ plan.fonts,
    (k.described t plan.fonts).locate (k.descriptorPath f) ≠
      (k.described t plan.fonts).locate file

/-- A plan settles in a project: its descriptors do, and once the import has been seen to, the
application file is ready for the calls. -/
structure Steady (k : Linker) (t : FileTree) (plan : LinkPlan) : Prop extends
    Settling k t plan where
  names : ∀ f ∈ plan.fonts, '\n' ∉ f.family.toList ∧ Balanced f.family.toList
  source : ∀ file text, k.applicationFile (k.described t plan.fonts) = .ok file →
    (k.described t plan.fonts).readText file = .ok text →
      ∃ b, Registration.Ready k.dialect (Operation.textAfter text
        ((Operation.addImport Registration.managerImport).run text k.dialect)) b

/-- The operations that register families. -/
def applicationOperations (d : Dialect) (families : List FontFamily) : List Operation :=
  .addImport Registration.managerImport ::
    (registrations d ⟨""⟩ ("super." ++ registerMethod ++ "()") families).map (·.operation)

theorem operation_registrations (d : Dialect) (file file' : Path) (anchor : String)
    (families : List FontFamily) : (registrations d file anchor families).map (·.operation) =
      (registrations d file' anchor families).map (·.operation) := by
  induction families generalizing anchor with
  | nil => rfl
  | cons f families ih =>
    rw [registrations, registrations, List.map_cons, List.map_cons, ih]

theorem operation_applicationPatches (k : Linker) (l : Location) (families : List FontFamily) :
    (k.applicationPatches l families).map (·.operation) =
      applicationOperations k.dialect families :=
  congrArg (_ :: ·) (operation_registrations _ _ _ _ _)

/-- Once all steps of a run are done, the application file has the text that the operations come to,
and the same run again finds the descriptors done and runs the operations on that text. -/
theorem link_of_settling (ht : t.IsTree) (hvalid : plan.isValid = true)
    (hpatches : plan.patches = []) (hsettling : k.Settling t plan)
    (hlink : k.link .write t plan = (.ok results, t')) (hdone : ∀ r ∈ results, r.isDone = true) :
    ∃ l found first, l.Named ∧ k.applicationFile (k.described t plan.fonts) = .ok l.path ∧
      (k.described t plan.fonts).readText l.path = .ok found ∧
      (∀ x ∈ Operation.outcomes k.dialect found (applicationOperations k.dialect plan.fonts),
        ∃ patch, x = .ok patch) ∧
      t'.readText l.path =
        .ok (Operation.finalText k.dialect found (applicationOperations k.dialect plan.fonts)) ∧
      (∀ r ∈ first, r.isQuiet = true) ∧
      results.map (·.id) = first.map (·.id) ++ (k.applicationPatches l plan.fonts).map (·.id) ∧
      t'.namesLink l.path = false ∧
      k.link .write t' plan =
        (.ok (first ++ (Patching.runFile k.dialect .write t' l
            (k.applicationPatches l plan.fonts)).1),
          (Patching.runFile k.dialect .write t' l (k.applicationPatches l plan.fonts)).2) := by
  have hne := LinkPlan.fonts_ne_nil hvalid hpatches
  have hfiles : ∀ f ∈ plan.fonts, ∀ x ∈ f.files,
      Xml.Plain (fontResourceRef x.name) ∧ x.weight < Text.shortLimit := by
    intro f hf x hx
    have hweight := LinkPlan.isFontWeight_of_isValid hvalid hf hx
    simp only [isFontWeight, Bool.and_eq_true, decide_eq_true_eq] at hweight
    exact ⟨hsettling.refs f hf x hx, hweight.2.trans_lt (by decide)⟩
  obtain ⟨written, u, patches, hwritten, hfont, rfl, -⟩ := link_eq_ok hlink
  have hwrittenDone : ∀ r ∈ written, r.isDone = true :=
    fun r hr => hdone r (List.mem_append_left _ hr)
  obtain rfl : k.described t plan.fonts = u := by rw [described, hwritten]
  obtain ⟨hnil, -⟩ | ⟨-, file, hfile, -⟩ := fontPatches_eq_ok hfont
  · exact absurd hnil hne
  obtain ⟨-, -, -, -, -, hroot⟩ := applicationFile_cases hfile
  have hu := (locate_linkDescriptors ht hroot hsettling.turns hfiles hwritten hwrittenDone).1
  obtain ⟨l, c, rfl, hl, hcheck⟩ := applicationFile_eq_ok hu hfile
  have hrun := hlink.symm.trans (link_of_linkDescriptors hpatches hne hwritten hu hfile hl hcheck)
  obtain ⟨hresults, rfl⟩ := Prod.mk.inj hrun
  rw [Except.ok.inj hresults] at hdone ⊢
  have hdescribed := (described_of_linkDescriptors ht hroot hsettling.turns hfiles hwritten
    hwrittenDone (List.Subset.refl _) hsettling.agree).1
  -- the application file
  have hsome : k.applicationPatches l plan.fonts ≠ [] := List.cons_ne_nil _ _
  obtain ⟨found, t', hrun, hread, hok, halike, hother, hfinal⟩ :=
    Patching.runFile_of_isDone hu hl hsome fun r hr => hdone r (List.mem_append_right _ hr)
  rw [operation_applicationPatches] at hok hfinal
  rw [hrun]
  -- the second run
  have hkept : ∀ f ∈ plan.fonts, ∃ r d, Described k t' f r d := by
    intro f hf
    obtain ⟨r, d, hd⟩ := hdescribed f hf
    refine ⟨r, d, hd.alike halike (hother r ?_)⟩
    rintro rfl
    exact hsettling.apart _ hfile f hf (hd.leads.trans
      (locate_of_readText (hu.reached (holds_of_file hl)) hread).1.symm)
  obtain ⟨first, hfirst, hquiet⟩ :=
    linkDescriptors_of_described (halike.isTree hu) hroot hkept
  obtain ⟨c', hl'⟩ := (halike.file_iff l).2 ⟨c, hl⟩
  refine ⟨l, found, first, (hu.reached (holds_of_file hl)).named, hfile, hread, hok, hfinal, hquiet, ?_,
    namesLink_of_file (halike.isTree hu) hl', link_of_linkDescriptors hpatches hne hfirst
      (halike.isTree hu) ((applicationFile_alike k hu halike).trans hfile) hl' hcheck⟩
  rw [List.map_append, Patching.ids_resultsOf, ids_runEdits hwritten, ids_runEdits hfirst]

/-- Once all steps of a run are done, the run is done: the same run again finds that there is nothing
to do in any step, and leaves the tree as it is. -/
theorem link_again (ht : t.IsTree) (hvalid : plan.isValid = true) (hpatches : plan.patches = [])
    (hsteady : k.Steady t plan) (hlink : k.link .write t plan = (.ok results, t'))
    (hdone : ∀ r ∈ results, r.isDone = true) :
    ∃ again, k.link .write t' plan = (.ok again, t') ∧
      again.map (·.id) = results.map (·.id) ∧ ∀ r ∈ again, r.isQuiet = true := by
  obtain ⟨l, found, first, -, hfile, hread, hok, hfinal, hfirst, hids, -, hagain⟩ :=
    link_of_settling ht hvalid hpatches hsteady.toSettling hlink hdone
  obtain ⟨b, hready⟩ := hsteady.source _ found hfile hread
  have hdone' : ∀ op ∈ (k.applicationPatches l plan.fonts).map (·.operation),
      op.run (Operation.finalText k.dialect found (applicationOperations k.dialect plan.fonts))
        k.dialect = .ok .alreadyApplied := by
    rw [operation_applicationPatches]
    exact Registration.run_again hready hsteady.names hok
  obtain ⟨hrun, hquiet⟩ := Patching.runFile_of_alreadyApplied .write hfinal hdone'
  rw [hrun] at hagain
  refine ⟨_, hagain, ?_, fun r hr => (List.mem_append.1 hr).elim (hfirst r) (hquiet r)⟩
  rw [hids, List.map_append, Patching.ids_resultsOf]

/-! ## A project with one family -/

section
variable {first : List StepResult} {l : Location} {c : Contents} {found : String}
  {x : Registration.FirstRun}

theorem outcomes_of_firstRun? {d : Dialect}
    (hx : Registration.firstRun? d "super.onCreate()" f found.toList = some x) :
    Operation.outcomes d found (applicationOperations d [f]) =
        [.ok (.applied (String.ofList x.imported)), .ok (.applied (String.ofList x.registered))] ∧
      Operation.finalText d found (applicationOperations d [f]) = String.ofList x.registered := by
  obtain ⟨-, himport, -, hcall⟩ := Registration.of_firstRun? hx
  have hops : applicationOperations d [f] =
      [.addImport Registration.managerImport, Registration.registration "super.onCreate()" f d] := rfl
  rw [hops, Operation.outcomes_cons, Operation.outcomes_cons, Operation.finalText_cons,
    Operation.finalText_cons, himport]
  simp only [Operation.textAfter, TextPatch.textOr, hcall]
  exact ⟨rfl, rfl⟩

/-- An import that is not found is written if there is a package declaration. -/
theorem exists_addImport_of_absent {d : Dialect} {p : Pattern} {text : String}
    (hp : Body.anchorPattern d (.importOf Registration.managerImport) = .ok p)
    (habsent : p.occursIn text.toList = false)
    (hpackage : ((Anchor.package.pattern? d).any fun q => (q.find? text.toList).isSome) = true) :
    ∃ patched, (Operation.addImport Registration.managerImport).run text d =
      .ok (.applied patched) := by
  obtain ⟨q, hq, hfind⟩ := Registration.anchorPattern_of_any hpackage
  obtain ⟨m, hm⟩ := Option.isSome_iff_exists.1 hfind
  refine ⟨String.ofList (m.before ++ m.matched ++ ['\n', '\n'] ++
    (d.importStatement Registration.managerImport).toList ++ m.after), ?_⟩
  change addImport text _ d = _
  rw [addImport, hp, hq]
  simp only [Bind.bind, Except.bind, habsent, hm, Bool.false_eq_true, if_false]
  rfl

/-- A run that finds neither the import nor the call writes both. -/
theorem link_of_firstRun? (hpatches : plan.patches = []) (hfonts : plan.fonts = [f])
    (hfirst : k.linkDescriptors .write t plan.fonts = (.ok first, u)) (hu : u.IsTree)
    (hfile : k.applicationFile u = .ok l.path) (hl : u.get? l = some (.file c))
    (hcheck : k.guard.check l = .ok l) (hread : u.readText l.path = .ok found)
    (hroom : ((Location.path l.dropLast).join temporaryName).isTooLong = false)
    (hx : Registration.firstRun? k.dialect "super.onCreate()" f found.toList = some x)
    (hdone : ∀ r ∈ first, r.isDone = true) :
    ∃ results t', k.link .write t plan = (.ok results, t') ∧ ∀ r ∈ results, r.isDone = true := by
  have hreached := hu.reached (holds_of_file hl)
  refine ⟨_, _, link_of_linkDescriptors hpatches (hfonts ▸ List.cons_ne_nil _ _) hfirst hu hfile hl
    hcheck, fun r hr => (List.mem_append.1 hr).elim (hdone r) fun hr => ?_⟩
  rw [Patching.fst_runFile_of_room hreached.named hread (namesLink_of_file hu hl) hroom] at hr
  refine Patching.isDone_of_outcomes (fun y hy => ?_) r hr
  rw [operation_applicationPatches, hfonts, (outcomes_of_firstRun? hx).1] at hy
  rcases List.mem_pair.1 hy with rfl | rfl
  · exact ⟨_, rfl⟩
  · exact ⟨_, rfl⟩

end

/-- A plan with one family that has no descriptor yet settles if its descriptor is not where the
application file is. -/
theorem settling_of_singleton {first : List StepResult} {file : Path} (hfonts : plan.fonts = [f])
    (hfirst : k.linkDescriptors .write t plan.fonts = (.ok first, u))
    (hnew : (k.descriptorEdit t f).toOption.all (·.before.isNone) = true)
    (hrefs : ∀ x ∈ f.files, Xml.Plain (fontResourceRef x.name))
    (hreached : u.hasPath (k.descriptorPath f) = true) (hfile : k.applicationFile u = .ok file)
    (hapart : u.locate (k.descriptorPath f) ≠ u.locate file) : k.Settling t plan := by
  have hu : k.described t plan.fonts = u := congrArg Prod.snd hfirst
  refine ⟨?_, ?_, ?_, ?_⟩
  · rintro before g after h
    obtain ⟨rfl, rfl, rfl⟩ : before = [] ∧ g = f ∧ after = [] := by
      rw [hfonts] at h
      cases before with
      | nil =>
        obtain ⟨rfl, rfl⟩ := List.cons.inj h
        exact ⟨rfl, rfl, rfl⟩
      | cons x before => cases (List.append_eq_nil_iff.1 (List.cons.inj h).2.symm).2
    refine ⟨fun e text d (he : k.descriptorEdit t g = .ok e) hbefore => ?_, ?_⟩
    · rw [he] at hnew
      cases (Option.isNone_iff_eq_none.1 hnew).symm.trans hbefore
    · have hg : k.described (k.described t []) [g] = u := by
        change k.described t [g] = u
        rw [← hfonts, hu]
      rw [hg]
      exact hreached
  · rw [hfonts]
    exact fun g hg => List.mem_singleton.1 hg ▸ hrefs
  · rw [hfonts]
    intro g hg g' hg' _
    obtain rfl := List.mem_singleton.1 hg
    obtain rfl := List.mem_singleton.1 hg'
    exact fun _ _ _ he he' => Option.some.inj (he.symm.trans he')
  · rw [hu, hfonts]
    intro file' hfile' g hg
    obtain rfl := List.mem_singleton.1 hg
    obtain rfl := Except.ok.inj (hfile.symm.trans hfile')
    exact hapart

/-- A project with a class in a dialect. -/
def classProject (d : Dialect) (text : String) : FileTree where
  nodes := [(["android"], .directory), (["android", "app"], .directory),
    (["android", "app", "src"], .directory), (["android", "app", "src", "main"], .directory),
    (["android", "app", "src", "main", "java"], .directory),
    (["android", "app", "src", "main", "java", "MainApplication." ++ d.extension],
      .file (.text text))]
  current := []

def latoFamily : FontFamily := ⟨"Lato", none, [⟨"a.ttf", 400, false⟩]⟩

/-- A plan with one family. -/
def latoPlan : LinkPlan where
  info := ⟨"", none, none⟩
  fonts := [latoFamily]
  patches := []

def latoLinker (d : Dialect) : Linker := ⟨⟨["android"]⟩, d⟩

/-- The application file of the project. -/
def classFile (d : Dialect) : Location :=
  ["android", "app", "src", "main", "java", "MainApplication." ++ d.extension]

/-- The project with the descriptor of the family. -/
def classProjectWithLato (d : Dialect) (text : String) : FileTree where
  nodes := (classProject d text).nodes ++ [(["android", "app", "src", "main", "res"], .directory),
    (["android", "app", "src", "main", "res", "font"], .directory),
    (["android", "app", "src", "main", "res", "font", "lato.xml"],
      .file (.text (Descriptor.build latoFamily.files).toXml))]
  current := []

/-- What a run of the plan comes upon in the project. -/
structure Prepared (d : Dialect) (text : String) : Prop where
  tree : (classProject d text).IsTree
  described : (latoLinker d).linkDescriptors .write (classProject d text) latoPlan.fonts =
    (.ok [⟨"font-family-lato", .ok (.applied ((latoLinker d).descriptorPath latoFamily))⟩],
      classProjectWithLato d text)
  isTree : (classProjectWithLato d text).IsTree
  file : (latoLinker d).applicationFile (classProjectWithLato d text) =
    .ok (Location.path (classFile d))
  found : (classProjectWithLato d text).get? (classFile d) = some (.file (.text text))
  check : (latoLinker d).guard.check (classFile d) = .ok (classFile d)
  read : (classProjectWithLato d text).readText (Location.path (classFile d)) = .ok text
  named : (classFile d).Named
  room : ((Location.path (classFile d).dropLast).join temporaryName).isTooLong = false
  settling : (latoLinker d).Settling (classProject d text) latoPlan

/-- The first run of the plan over a class that has neither the import nor the call. -/
theorem Prepared.link {d : Dialect} {text : String} {x : Registration.FirstRun}
    (h : Prepared d text)
    (hx : Registration.firstRun? d "super.onCreate()" latoFamily text.toList = some x) :
    ∃ results t', (latoLinker d).link .write (classProject d text) latoPlan = (.ok results, t') ∧
      ∀ r ∈ results, r.isDone = true :=
  link_of_firstRun? (k := latoLinker d) rfl rfl h.described h.isTree h.file
    h.found h.check h.read h.room hx fun r hr => by rw [List.mem_singleton.1 hr]; rfl

def javaClass : String :=
  "package a;\nclass MainApplication\x7bpublic void onCreate()\x7bsuper.onCreate();\n\x7d\x7d"

/-- A class in a file whose package declaration ends as in the other dialect. -/
def kotlinClass : String :=
  "package a;\nclass MainApplication:A()\x7boverride fun onCreate()\x7bsuper.onCreate()\n\x7d\x7d"

/-- The class of each dialect. -/
def ownClass : Dialect → String
  | .java => javaClass
  | .kotlin => kotlinClass

theorem prepared (d : Dialect) : Prepared d (ownClass d) := by
  have hrun : (latoLinker d).linkDescriptors .write (classProject d (ownClass d)) latoPlan.fonts =
      (.ok [⟨"font-family-lato", .ok (.applied ((latoLinker d).descriptorPath latoFamily))⟩],
        classProjectWithLato d (ownClass d)) := by
    cases d <;> decide +kernel
  have hfile : (latoLinker d).applicationFile (classProjectWithLato d (ownClass d)) =
      .ok (Location.path (classFile d)) := by
    cases d <;> decide +kernel
  cases d <;>
    exact ⟨.of_nodes (by decide +kernel), hrun, .of_nodes (by decide +kernel), hfile,
      by decide +kernel, by decide +kernel, by decide +kernel, by decide +kernel, by decide +kernel,
      settling_of_singleton rfl hrun (by decide +kernel) (by decide +kernel) (by decide +kernel)
        hfile (by decide +kernel)⟩

theorem prepared_java : Prepared .java javaClass := prepared .java

theorem prepared_kotlin : Prepared .kotlin kotlinClass := prepared .kotlin

theorem link_again_lato : ∃ results t' again,
    (latoLinker .java).link .write (classProject .java javaClass) latoPlan = (.ok results, t') ∧
    (∀ r ∈ results, r.isDone = true) ∧
    (latoLinker .java).link .write t' latoPlan = (.ok again, t') ∧
    ∀ r ∈ again, r.isQuiet = true := by
  have hready : ∃ x, Registration.firstRun? .java "super.onCreate()" latoFamily javaClass.toList =
      some x ∧ x.importPattern.occursIn x.body.before = true :=
    (Option.any_eq_true _ _).1 (by decide +kernel)
  obtain ⟨x, hx, hoccurs⟩ := hready
  obtain ⟨himport, hrun, hopened, -⟩ := Registration.of_firstRun? hx
  obtain ⟨results, t', hlink, hdone⟩ := prepared_java.link hx
  have hdescribed : (latoLinker .java).described (classProject .java javaClass) latoPlan.fonts =
      classProjectWithLato .java javaClass := congrArg Prod.snd prepared_java.described
  have hsteady : (latoLinker .java).Steady (classProject .java javaClass) latoPlan := {
    prepared_java.settling with
    names := by decide +kernel
    source := by
      intro file text hfile htext
      rw [hdescribed] at hfile htext
      obtain rfl := Except.ok.inj (prepared_java.file.symm.trans hfile)
      obtain rfl := Except.ok.inj (prepared_java.read.symm.trans htext)
      refine ⟨x.body, ?_, x.importPattern, himport, hoccurs⟩
      have himported : (latoLinker .java).dialect = .java := rfl
      rw [himported, hrun]
      simpa [Operation.textAfter, TextPatch.textOr] using hopened }
  obtain ⟨again, hagain, -, hquiet⟩ := link_again prepared_java.tree (by decide +kernel) rfl
    hsteady hlink hdone
  exact ⟨results, t', again, hlink, hdone, hagain, hquiet⟩

/-- An import is written right after what the pattern of a package takes.  Where a semicolon is left
behind it, the pattern of an import does not take the import. -/
theorem import_written_again : latoPlan.isValid = true ∧ latoPlan.patches = [] ∧
    ∃ results t' again t'',
      (latoLinker .kotlin).link .write (classProject .kotlin kotlinClass) latoPlan =
        (.ok results, t') ∧ (∀ r ∈ results, r.isDone = true) ∧
      (latoLinker .kotlin).link .write t' latoPlan = (.ok again, t'') ∧
      ⟨"import-react-font-manager", .ok (.applied (Location.path (classFile .kotlin)))⟩ ∈ again := by
  have hlost : ∃ x, Registration.firstRun? .kotlin "super.onCreate()" latoFamily
      kotlinClass.toList = some x ∧ (!x.importPattern.occursIn x.registered &&
        (Anchor.package.pattern? .kotlin).any fun p => (p.find? x.registered).isSome) = true :=
    (Option.any_eq_true _ _).1 (by decide +kernel)
  obtain ⟨x, hx, hlost⟩ := hlost
  obtain ⟨himport, -, -, -⟩ := Registration.of_firstRun? hx
  obtain ⟨results, t', hlink, hdone⟩ := prepared_kotlin.link hx
  have hvalid : latoPlan.isValid = true := by decide +kernel
  obtain ⟨l, found, first, hnamed, hfile, hread, -, hfinal, -, -, hnoLink, hagain⟩ :=
    link_of_settling prepared_kotlin.tree hvalid rfl prepared_kotlin.settling hlink hdone
  have hdescribed : (latoLinker .kotlin).described (classProject .kotlin kotlinClass)
      latoPlan.fonts = classProjectWithLato .kotlin kotlinClass :=
    congrArg Prod.snd prepared_kotlin.described
  rw [hdescribed] at hfile hread
  obtain rfl := Location.path_injective prepared_kotlin.named hnamed
    (Except.ok.inj (prepared_kotlin.file.symm.trans hfile))
  obtain rfl := Except.ok.inj (prepared_kotlin.read.symm.trans hread)
  obtain ⟨habsent, hpackage⟩ := (Bool.and_eq_true _ _).mp hlost
  rw [← String.toList_ofList (l := x.registered)] at habsent hpackage
  obtain ⟨patched, himport⟩ :=
    exists_addImport_of_absent himport (Bool.not_eq_true' _ ▸ habsent) hpackage
  have hfinal' : t'.readText (Location.path (classFile .kotlin)) =
      .ok (String.ofList x.registered) := by
    rw [hfinal]
    exact congrArg _ (outcomes_of_firstRun? hx).2
  refine ⟨hvalid, rfl, results, t', _, _, hlink, hdone, hagain, ?_⟩
  rw [Patching.fst_runFile_of_room hnamed hfinal' hnoLink prepared_kotlin.room, applicationPatches,
    Patching.resultsOf_cons]
  refine List.mem_append_right _ (List.mem_cons.2 (.inl ?_))
  change _ = StepResult.mk _ (.ok (Patching.outcomeOf _
    ((Operation.addImport Registration.managerImport).run (String.ofList x.registered) .kotlin)))
  rw [himport]
  rfl

end Linker

end AndroidFonts
