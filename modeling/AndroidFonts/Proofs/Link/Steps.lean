/-
# `AndroidFonts.Proofs.Link.Steps` — what the steps of a run are

A run is planned before it writes, and each plan says where it writes.  Here the planning functions
are turned round: what a planned descriptor edit is (`Linker.descriptorEdit_eq_ok`), which patches
register families (`Linker.fontPatches_eq_ok`), and which places the groups of some patches have
(`Patching.mem_groups`).
-/
import AndroidFonts.Link.Linker
import AndroidFonts.Proofs.Font.Name
import AndroidFonts.Proofs.Project.Sources
import AndroidFonts.Proofs.Tree.Effect

namespace AndroidFonts

open FileTree

namespace Linker

variable {t : FileTree} {k : Linker} {f : FontFamily} {families : List FontFamily}

/-- The path of the descriptor of a family. -/
def descriptorPath (k : Linker) (f : FontFamily) : Path :=
  Layout.fontFamilyFile k.root f.resourceId

/-- The place in the project where the descriptor of a family would be if nothing was a link. -/
def descriptorPlace (k : Linker) (f : FontFamily) : Location :=
  k.guard.root ++ ["app", "src", "main", "res", "font"] ++ [f.resourceId ++ ".xml"]

theorem named_font : Location.Named ["app", "src", "main", "res", "font"] := by decide

theorem named_descriptorPlace (hroot : k.guard.root.Named) : (k.descriptorPlace f).Named :=
  (hroot.append named_font).concat (isName_descriptor (f.id.getD f.family))

theorem descriptorPath_eq (hroot : k.guard.root.Named) :
    k.descriptorPath f = (k.descriptorPlace f).path := by
  have hnames : Layout.fontDirectory =
      "/".intercalate ["app", "src", "main", "res", "font"] := rfl
  rw [descriptorPath, Layout.fontFamilyFile, root, hnames,
    Location.path_join_intercalate hroot named_font (by simp), FontFamily.resourceId,
    Location.path_join (hroot.append named_font) (isName_descriptor (f.id.getD f.family))]
  rfl

theorem spelling_descriptorPath (hroot : k.guard.root.Named) :
    k.guard.spelling (k.descriptorPath f) = (k.descriptorPlace f).path := by
  rw [descriptorPath_eq hroot, Guard.spelling_path]

/-- A planned descriptor edit is for an accepted place; it adds to the descriptor that is there, or
makes one where there is none. -/
theorem descriptorEdit_eq_ok {e : FileEdit} (h : k.descriptorEdit t f = .ok e) :
    ∃ r, k.guard.validate t (k.descriptorPath f) = .ok r ∧ e.file = Location.path r ∧
      ((∃ text d, t.readText e.file = .ok text ∧ Descriptor.ofXml text = .ok d ∧
          e.before = some text ∧ e.after = (d.merge f.files).toXml) ∨
        (t.readText e.file = .error .notFound ∧ e.before = none ∧
          e.after = (Descriptor.build f.files).toXml)) := by
  unfold descriptorEdit validate at h
  rw [← descriptorPath] at h
  cases hr : k.guard.validate t (k.descriptorPath f) with
  | error cause =>
    rw [hr] at h
    cases h
  | ok r =>
    rw [hr] at h
    refine ⟨r, rfl, ?_⟩
    simp only [bind, Except.bind] at h
    cases htext : t.readText (Location.path r) with
    | ok text =>
      rw [htext] at h
      cases hd : Descriptor.ofXml text with
      | error cause => simp [hd] at h
      | ok d =>
        simp only [hd] at h
        obtain rfl := Except.ok.inj h
        exact ⟨rfl, .inl ⟨text, d, htext, hd, rfl, rfl⟩⟩
    | error cause =>
      rw [htext] at h
      cases cause
      case notFound =>
        simp only [IoError.isNotFound, if_true] at h
        obtain rfl := Except.ok.inj h
        exact ⟨rfl, .inr ⟨htext, rfl, rfl⟩⟩
      all_goals simp [IoError.isNotFound] at h

theorem descriptorEdit_of_ok {r : Location} {text : String} {d : Descriptor}
    (hr : k.guard.validate t (k.descriptorPath f) = .ok r)
    (hread : t.readText r.path = .ok text) (hd : Descriptor.ofXml text = .ok d) :
    k.descriptorEdit t f = .ok ⟨r.path, some text, (d.merge f.files).toXml⟩ := by
  unfold descriptorEdit validate
  rw [← descriptorPath, hr]
  simp only [bind, Except.bind, hread, hd]
  rfl

theorem file_of_mem_registrations {d : Dialect} {file : Path} {anchor : String} {p : SourcePatch}
    (h : p ∈ registrations d file anchor families) : p.file = file := by
  induction families generalizing anchor with
  | nil => nomatch h
  | cons f fs ih =>
    rcases List.mem_cons.1 h with rfl | h
    · rfl
    · exact ih h

/-- The patches for some families all go to the application file. -/
theorem fontPatches_eq_ok {patches : List SourcePatch}
    (h : k.fontPatches t families = .ok patches) :
    (families = [] ∧ patches = []) ∨ families ≠ [] ∧ ∃ file, k.applicationFile t = .ok file ∧
      patches = { id := "import-react-font-manager", file := file
                  operation := .addImport Registration.managerImport } ::
        registrations k.dialect file ("super." ++ registerMethod ++ "()") families := by
  unfold fontPatches at h
  by_cases hnil : families = []
  · rw [if_pos hnil] at h
    exact .inl ⟨hnil, (Except.ok.inj h).symm⟩
  · rw [if_neg hnil] at h
    refine .inr ⟨hnil, ?_⟩
    cases hfile : k.applicationFile t with
    | error cause =>
      rw [hfile] at h
      nomatch h
    | ok file =>
      rw [hfile] at h
      exact ⟨file, rfl, (Except.ok.inj h).symm⟩

theorem fontPatches_of_ok {families : List FontFamily} {file : Path} (hne : families ≠ [])
    (hfile : k.applicationFile t = .ok file) :
    k.fontPatches t families = .ok ({
      id := "import-react-font-manager", file := file
      operation := .addImport Registration.managerImport } ::
        registrations k.dialect file ("super." ++ registerMethod ++ "()") families) := by
  unfold fontPatches
  rw [if_neg hne, hfile]
  rfl

theorem fontPatches_eq_error {cause : LinkError} (h : k.fontPatches t families = .error cause) :
    k.applicationFile t = .error cause := by
  unfold fontPatches at h
  by_cases hnil : families = []
  · rw [if_pos hnil] at h
    nomatch h
  · rw [if_neg hnil] at h
    cases hfile : k.applicationFile t with
    | error cause' =>
      rw [hfile] at h
      exact congrArg _ (Except.error.inj h)
    | ok file =>
      rw [hfile] at h
      nomatch h

theorem file_of_mem_fontPatches {patches : List SourcePatch} {p : SourcePatch}
    (h : k.fontPatches t families = .ok patches) (hp : p ∈ patches) :
    k.applicationFile t = .ok p.file := by
  rcases fontPatches_eq_ok h with ⟨-, rfl⟩ | ⟨-, file, hfile, rfl⟩
  · nomatch hp
  · rcases List.mem_cons.1 hp with rfl | hp
    · exact hfile
    · rwa [file_of_mem_registrations hp]

/-! ## One edit -/

section
variable {mode : RunMode} {e : FileEdit} {r : Location}

theorem snd_runEdit (mode : RunMode) (t : FileTree) (e : FileEdit) :
    (runEdit mode t e).2 = t ∨ (runEdit mode t e).2 = (e.apply t).2 := by
  unfold runEdit
  by_cases hnoop : e.isNoop = true
  · exact .inl (by rw [if_pos hnoop])
  · rw [if_neg hnoop]
    by_cases hmode : mode = .check
    · exact .inl (by rw [if_pos hmode])
    · rw [if_neg hmode]
      right
      cases e.apply t with
      | mk result u =>
        rcases result with cause | outcome
        · rfl
        · cases outcome <;> rfl

theorem runEdit_touched (ht : t.IsTree) (hnamed : r.Named) (hr : t.Straight r.dropLast)
    (he : e.file = r.path) (mode : RunMode) : Touched r t (runEdit mode t e).2 := by
  rcases snd_runEdit mode t e with h | h
  · rw [h]
    exact .refl ht
  · rw [h]
    exact FileEdit.apply_touched ht hnamed hr he

theorem runEdit_of_noop (h : e.isNoop = true) :
    runEdit mode t e = (.ok (.alreadyApplied e.file), t) := by
  rw [runEdit, if_pos h]

end

/-! ## Runs of edits -/

section
variable {u : FileTree} {mode : RunMode} {e : FileEdit} {results : List StepResult} {α : Type}
  {step : FileTree → α → Except LinkError FileEdit} {id : α → String} {a : α} {as : List α}

theorem runEdits_cons_of_ok (h : step t a = .ok e)
    (hrest : runEdits step id mode (runEdit mode t e).2 as = (.ok results, u)) :
    runEdits step id mode t (a :: as) =
      (.ok (⟨id a, (runEdit mode t e).1⟩ :: results), u) := by
  cases hrun : runEdit mode t e with
  | mk result v =>
    rw [hrun] at hrest
    simp only [runEdits, h, hrun, hrest]

theorem runEdits_cons_of_error {cause : LinkError} (h : step t a = .ok e)
    (hrest : runEdits step id mode (runEdit mode t e).2 as = (.error cause, u)) :
    runEdits step id mode t (a :: as) = (.error cause, u) := by
  cases hrun : runEdit mode t e with
  | mk result v =>
    rw [hrun] at hrest
    simp only [runEdits, h, hrun, hrest]

theorem runEdits_cons_eq_ok (h : runEdits step id mode t (a :: as) = (.ok results, u)) :
    ∃ e rest, step t a = .ok e ∧
      runEdits step id mode (runEdit mode t e).2 as = (.ok rest, u) ∧
      results = ⟨id a, (runEdit mode t e).1⟩ :: rest := by
  cases hstep : step t a with
  | error cause =>
    rw [runEdits, hstep] at h
    nomatch h
  | ok e =>
    cases hrest : runEdits step id mode (runEdit mode t e).2 as with
    | mk result v =>
      cases result with
      | error cause =>
        rw [runEdits_cons_of_error hstep hrest] at h
        nomatch h
      | ok rest =>
        rw [runEdits_cons_of_ok hstep hrest] at h
        obtain ⟨hresults, rfl⟩ := Prod.mk.inj h
        exact ⟨e, rest, rfl, hrest, (Except.ok.inj hresults).symm⟩

/-- Where not all edits could be planned, those in front of the first that could not were made, and
nothing else was done. -/
theorem runEdits_eq_error {cause : LinkError} (h : runEdits step id mode t as = (.error cause, u)) :
    ∃ done a rest results, as = done ++ a :: rest ∧
      runEdits step id mode t done = (.ok results, u) ∧ step u a = .error cause := by
  induction as generalizing t with
  | nil =>
    rw [runEdits] at h
    nomatch h
  | cons a as ih =>
    cases hstep : step t a with
    | error cause' =>
      rw [runEdits, hstep] at h
      obtain ⟨hcause, rfl⟩ := Prod.mk.inj h
      obtain rfl := Except.error.inj hcause
      exact ⟨[], a, as, [], rfl, rfl, hstep⟩
    | ok e =>
      cases hrest : runEdits step id mode (runEdit mode t e).2 as with
      | mk result v =>
        cases result with
        | ok results =>
          rw [runEdits_cons_of_ok hstep hrest] at h
          nomatch h
        | error cause' =>
          rw [runEdits_cons_of_error hstep hrest] at h
          obtain ⟨done, b, rest, results, rfl, hdone, hb⟩ := ih (hrest.trans h)
          exact ⟨a :: done, b, rest, _, rfl, runEdits_cons_of_ok hstep hdone, hb⟩

theorem ids_runEdits (h : runEdits step id mode t as = (.ok results, u)) :
    results.map (·.id) = as.map id := by
  induction as generalizing t results with
  | nil =>
    rw [runEdits] at h
    rw [← Except.ok.inj (Prod.mk.inj h).1]
    rfl
  | cons a as ih =>
    obtain ⟨e, rest, -, hrest, rfl⟩ := runEdits_cons_eq_ok h
    rw [List.map_cons, List.map_cons, ih hrest]

end

/-! ## Runs by their parts -/

variable {t' u : FileTree} {mode : RunMode} {plan : LinkPlan} {results : List StepResult}

theorem link_of_error {cause : LinkError}
    (h : k.linkDescriptors mode t plan.fonts = (.error cause, u)) :
    k.link mode t plan = (.error cause, u) := by
  unfold link
  rw [h]

theorem link_of_ok_error {cause : LinkError}
    (h : k.linkDescriptors mode t plan.fonts = (.ok results, u))
    (hpatches : k.fontPatches u plan.fonts = .error cause) :
    k.link mode t plan = (.error cause, u) := by
  unfold link
  rw [h]
  simp only [hpatches]

theorem link_of_ok_ok {patches : List SourcePatch}
    (h : k.linkDescriptors mode t plan.fonts = (.ok results, u))
    (hpatches : k.fontPatches u plan.fonts = .ok patches) :
    k.link mode t plan =
      (.ok (results ++
        (Patching.run k.guard k.dialect mode u (patches ++ plan.patches)).1),
        (Patching.run k.guard k.dialect mode u (patches ++ plan.patches)).2) := by
  unfold link
  rw [h]
  simp only [hpatches]

theorem link_eq_ok (h : k.link mode t plan = (.ok results, t')) :
    ∃ first u patches, k.linkDescriptors mode t plan.fonts = (.ok first, u) ∧
      k.fontPatches u plan.fonts = .ok patches ∧
      results = first ++ (Patching.run k.guard k.dialect mode u (patches ++ plan.patches)).1 ∧
      t' = (Patching.run k.guard k.dialect mode u (patches ++ plan.patches)).2 := by
  cases hfirst : k.linkDescriptors mode t plan.fonts with
  | mk result u =>
    cases result with
    | error cause =>
      rw [link_of_error hfirst] at h
      nomatch h
    | ok first =>
      cases hpatches : k.fontPatches u plan.fonts with
      | error cause =>
        rw [link_of_ok_error hfirst hpatches] at h
        nomatch h
      | ok patches =>
        rw [link_of_ok_ok hfirst hpatches] at h
        obtain ⟨hresults, htree⟩ := Prod.mk.inj h
        exact ⟨first, u, patches, rfl, hpatches, (Except.ok.inj hresults).symm, htree.symm⟩

/-- A run fails where a descriptor cannot be planned, or where the application class is not found. -/
theorem link_eq_error {cause : LinkError} (h : k.link mode t plan = (.error cause, t')) :
    k.linkDescriptors mode t plan.fonts = (.error cause, t') ∨
      (∃ results, k.linkDescriptors mode t plan.fonts = (.ok results, t')) ∧
        k.applicationFile t' = .error cause := by
  cases hfirst : k.linkDescriptors mode t plan.fonts with
  | mk result u =>
    cases result with
    | error cause' =>
      rw [link_of_error hfirst] at h
      exact .inl h
    | ok results =>
      cases hpatches : k.fontPatches u plan.fonts with
      | error cause' =>
        rw [link_of_ok_error hfirst hpatches] at h
        obtain ⟨hcause, rfl⟩ := Prod.mk.inj h
        obtain rfl := Except.error.inj hcause
        exact .inr ⟨⟨results, rfl⟩, fontPatches_eq_error hpatches⟩
      | ok patches =>
        rw [link_of_ok_ok hfirst hpatches] at h
        nomatch h

theorem unlink_of_error {cause : LinkError} {names : List String}
    (h : k.unlinkPatches t names = .error cause) : k.unlink mode t names = (.error cause, t) := by
  unfold unlink
  rw [h]

theorem unlink_of_ok {patches : List SourcePatch} {names : List String}
    (h : k.unlinkPatches t names = .ok patches) :
    k.unlink mode t names = (.ok (Patching.run k.guard k.dialect mode t patches).1,
      (Patching.run k.guard k.dialect mode t patches).2) := by
  unfold unlink
  rw [h]

theorem file_of_mem_unlinkPatches {patches : List SourcePatch} {p : SourcePatch}
    {names : List String} (h : k.unlinkPatches t names = .ok patches) (hp : p ∈ patches) :
    k.applicationFile t = .ok p.file := by
  unfold unlinkPatches at h
  by_cases hnil : names = []
  · rw [if_pos hnil] at h
    obtain rfl := Except.ok.inj h
    nomatch hp
  · rw [if_neg hnil] at h
    cases hfile : k.applicationFile t with
    | error cause =>
      rw [hfile] at h
      nomatch h
    | ok file =>
      rw [hfile] at h
      obtain rfl := Except.ok.inj h
      obtain ⟨name, -, rfl⟩ := List.mem_map.1 hp
      rfl

end Linker

namespace Patching

variable {t : FileTree} {g : Guard} {patches : List SourcePatch} {l : Location}

theorem mem_accepted {p : SourcePatch} :
    (l, p) ∈ accepted t g patches ↔ p ∈ patches ∧ g.validate t p.file = .ok l := by
  simp only [accepted, List.mem_filterMap, Option.map_eq_some_iff, Prod.mk.injEq]
  constructor
  · rintro ⟨q, hq, m, hm, rfl, rfl⟩
    cases h : g.validate t q.file with
    | error cause => simp [h, Except.toOption] at hm
    | ok r =>
      refine ⟨hq, ?_⟩
      rw [h, Except.toOption] at hm
      rw [Option.some.inj hm]
  · rintro ⟨hp, h⟩
    exact ⟨p, hp, l, by rw [h, Except.toOption], rfl, rfl⟩

theorem mem_addToGroup {p : SourcePatch} {gs : List (Location × List SourcePatch)}
    {x : Location × List SourcePatch} (h : x ∈ addToGroup l p gs) :
    x.1 = l ∨ ∃ y ∈ gs, y.1 = x.1 := by
  induction gs with
  | nil =>
    rw [addToGroup, List.mem_singleton] at h
    exact .inl (h ▸ rfl)
  | cons y gs ih =>
    obtain ⟨m, ps⟩ := y
    rw [addToGroup] at h
    split at h
    · rename_i heq
      rcases List.mem_cons.1 h with rfl | h
      · exact .inl heq
      · exact .inr ⟨x, List.mem_cons_of_mem _ h, rfl⟩
    · rcases List.mem_cons.1 h with rfl | h
      · exact .inr ⟨_, List.mem_cons_self, rfl⟩
      · rcases ih h with h | ⟨y, hy, h⟩
        · exact .inl h
        · exact .inr ⟨y, List.mem_cons_of_mem _ hy, h⟩

theorem groups_of_forall {ps qs : List SourcePatch} :
    (qs.map fun p => (l, p)).foldl (fun groups (l, p) => addToGroup l p groups) [(l, ps)] =
      [(l, ps ++ qs)] := by
  induction qs generalizing ps with
  | nil => simp
  | cons q qs ih =>
    rw [List.map_cons, List.foldl_cons]
    simp only [addToGroup, if_true]
    rw [ih, List.append_assoc, List.singleton_append]

/-- Patches that are all accepted for one place are run on the file there. -/
theorem run_of_forall {d : Dialect} {mode : RunMode} (hne : patches ≠ [])
    (h : ∀ p ∈ patches, g.validate t p.file = .ok l) :
    run g d mode t patches = runFile d mode t l patches := by
  have haccepted : accepted t g patches = patches.map fun p => (l, p) := by
    rw [accepted, List.filterMap_congr (g := fun p => some (l, p)) fun p hp => by rw [h p hp]; rfl,
      List.filterMap_eq_map']
  have hrefused : refused t g patches = [] :=
    List.filterMap_eq_nil_iff.2 fun p hp => by rw [h p hp]
  obtain ⟨p, ps, rfl⟩ := List.exists_cons_of_ne_nil hne
  have hgroups : groups ((p :: ps).map fun p => (l, p)) = [(l, p :: ps)] :=
    show _ = [(l, [p] ++ ps)] from groups_of_forall
  rw [run, haccepted, hrefused, hgroups]
  simp [runGroups]

/-- The places of the groups are those of the patches. -/
theorem mem_groups {resolved : List (Location × SourcePatch)} {x : Location × List SourcePatch}
    (h : x ∈ groups resolved) : ∃ p, (x.1, p) ∈ resolved := by
  have hfold : ∀ {resolved : List (Location × SourcePatch)} {gs},
      x ∈ resolved.foldl (fun groups (l, p) => addToGroup l p groups) gs →
        (∃ y ∈ gs, y.1 = x.1) ∨ ∃ p, (x.1, p) ∈ resolved := by
    intro resolved
    induction resolved with
    | nil => exact fun h => .inl ⟨x, h, rfl⟩
    | cons head resolved ih =>
      intro gs h
      rcases ih h with ⟨y, hy, hyx⟩ | ⟨p, hp⟩
      · rcases mem_addToGroup hy with heq | ⟨z, hz, hzy⟩
        · exact .inr ⟨head.2, by simp [← hyx, heq]⟩
        · exact .inl ⟨z, hz, hzy.trans hyx⟩
      · exact .inr ⟨p, List.mem_cons_of_mem _ hp⟩
  rcases hfold h with ⟨y, hy, -⟩ | h
  · nomatch hy
  · exact h

end Patching

end AndroidFonts
