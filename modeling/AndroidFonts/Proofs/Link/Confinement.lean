/-
# `AndroidFonts.Proofs.Link.Confinement` — writes stay in the project

Every path that a job writes to is judged first, and the write follows the path of the accepted place
once more.  The two agree as long as no link on the way to the accepted place leads to a directory
(`Guard.Faithful`).  A path is judged in the tree as the job finds it at that step: the descriptor of
a family in the tree that the families before it have left, a plan's own patches in the tree after all
descriptors (`Job.judged`).

Under that condition `job_confined` says of linking, unlinking and patching, in both modes and
whether the job fails or not, that every file that is new or has changed is in the project and not in
the output of its build, and that no file is lost.  The condition holds of every path whose spelling
leads somewhere, and of every path within the limits of the system (`Guard.faithful_of_limits`); past
them a link can be taken for a name that is yet to be made, and the write goes where the link leads
(`patch_through_link`).
-/
import AndroidFonts.Proofs.Link.Steps
import AndroidFonts.Proofs.Project.Sources
import AndroidFonts.Proofs.Tree.Effect

namespace AndroidFonts

open FileTree

/-! ## Judging faithfully -/

namespace FileTree

variable {t t' t'' : FileTree} {l : Location}

theorem Settled.straight (h : t.Settled l) : t.Straight l := by
  intro c hc target htarget
  have hpath := h c hc target htarget
  refine Bool.eq_false_iff.2 fun hdir => ?_
  obtain ⟨m, hm, -⟩ := isDirectory_iff.1 hdir
  rw [hasPath_iff.2 ⟨m, hm⟩] at hpath
  nomatch hpath

theorem Reached.straight (h : t.Reached l) : t.Straight l.dropLast :=
  (h.of_isPrefix (List.dropLast_prefix l)).settled.straight

end FileTree

namespace Guard

variable {t : FileTree} {g : Guard} {p : Path} {r : Location}

/-- On the way to the place accepted for a path, no link leads to a directory. -/
def Faithful (g : Guard) (t : FileTree) (p : Path) : Prop :=
  ∀ r, g.validate t p = .ok r → t.Straight r.dropLast

/-- A path that leads somewhere is judged faithfully, and so is one that is not too long and does
not go through too many links. -/
theorem faithful_of_limits (h : t.hasPath (g.spelling p) = true ∨
    (g.spelling p).isTooLong = false ∧
      t.follow maxLinks [] (g.spelling p).steps ≠ .error .tooManyLinks) : g.Faithful t p := by
  intro r hr
  have habs := isAbsolute_spelling g p
  rcases resolveFrom_cases (validate_eq_ok_iff.1 hr).1 habs with
    ⟨hres, -⟩ | ⟨i, q, name, l, -, hpath, hpop, -, -, hl, rfl⟩
  · exact (reached_of_resolve habs hres).straight
  · rcases h with h | ⟨hlong, hlinks⟩
    · rw [h] at hpath
      nomatch hpath
    -- the name set aside first stands at the end, so the rest asks for no directory
    · obtain ⟨hqlong, hqlinks, hqask⟩ := limits_of_popped hpop hlong hlinks
      rw [List.dropLast_concat]
      exact (settled_of_resolveFrom hl hpop.isAbsolute hqlong hqlinks hqask).1.straight

/-- The path of a place that is reached through directories is judged faithfully. -/
theorem faithful_of_reached (h : t.Reached r) : g.Faithful t r.path := by
  intro m hm
  obtain ⟨hres, hcheck⟩ := validate_eq_ok_iff.1 hm
  rw [spelling_path] at hres
  rw [resolve, resolveFrom_path h.settled h.named (length_le_pieces_path h.named)] at hres
  exact Except.ok.inj hres ▸ h.straight

/-! ## Confined changes -/

/-- Every file that is new or has changed lies in the project, outside the directories that a build
fills, and no file is lost. -/
structure Confined (g : Guard) (t t' : FileTree) : Prop where
  written : ∀ l c, t'.get? l = some (.file c) → t.get? l ≠ some (.file c) →
    g.root <+: l ∧ ∀ d ∈ generatedDirectories, ¬ g.root ++ d <+: l
  kept : ∀ l c, t.get? l = some (.file c) → ∃ c', t'.get? l = some (.file c')

namespace Confined

variable {t' t'' : FileTree}

theorem refl (g : Guard) (t : FileTree) : Confined g t t :=
  ⟨fun _ _ h hne => absurd h hne, fun _ c h => ⟨c, h⟩⟩

theorem trans (h : Confined g t t') (h' : Confined g t' t'') : Confined g t t'' := by
  refine ⟨fun l c hc hne => ?_, fun l c hc => ?_⟩
  · by_cases hmid : t'.get? l = some (.file c)
    · exact h.written l c hmid hne
    · exact h'.written l c hc hmid
  · obtain ⟨c', hc'⟩ := h.kept l c hc
    exact h'.kept l c' hc'

theorem of_touched (h : Touched r t t') (hcheck : g.check r = .ok r) : Confined g t t' := by
  refine ⟨fun l c hc hne => ?_, fun l c hc => ?_⟩
  · rcases h.get? l with heq | ⟨-, hdir, -⟩ | ⟨rfl, -, -⟩
    · exact absurd (heq ▸ hc) hne
    · rw [hdir] at hc
      nomatch hc
    · exact (check_eq_ok_iff.1 hcheck).2
  · rcases h.get? l with heq | ⟨hnone, -, -⟩ | ⟨-, -, hfile⟩
    · exact ⟨c, heq ▸ hc⟩
    · rw [hnone] at hc
      nomatch hc
    · exact hfile

end Confined

end Guard

open Guard

/-! ## Descriptors -/

namespace Linker

variable {t : FileTree} {k : Linker} {mode : RunMode} {e : FileEdit} {r : Location}

/-- The families whose descriptors a run comes to, each with the tree it finds. -/
def turns {α : Type} (plan : FileTree → α → Except LinkError FileEdit) (mode : RunMode) :
    FileTree → List α → List (FileTree × α)
  | _, [] => []
  | t, a :: rest =>
    (t, a) ::
      match plan t a with
      | .error _ => []
      | .ok e => turns plan mode (runEdit mode t e).2 rest

/-- What each planned edit does to the tree it finds, a run of them does to its tree. -/
theorem runEdits_preserves {α : Type} {plan : FileTree → α → Except LinkError FileEdit}
    {id : α → String} {P : FileTree → FileTree → Prop} (hrefl : ∀ t, P t t)
    (htrans : ∀ {t u v}, P t u → P u v → P t v) {as : List α}
    (hstep : ∀ j ∈ turns plan mode t as, ∀ e, plan j.1 j.2 = .ok e →
      P j.1 (runEdit mode j.1 e).2) :
    P t (runEdits plan id mode t as).2 := by
  induction as generalizing t with
  | nil =>
    rw [runEdits]
    exact hrefl t
  | cons a rest ih =>
    rw [runEdits]
    rw [turns] at hstep
    cases hplan : plan t a with
    | error cause => exact hrefl t
    | ok e =>
      simp only [hplan] at hstep ⊢
      have hhead := hstep _ List.mem_cons_self e hplan
      have hrest := ih fun j hj => hstep j (List.mem_cons_of_mem _ hj)
      cases hrun : runEdits plan id mode (runEdit mode t e).2 rest with
      | mk result u =>
        rw [hrun] at hrest
        cases result <;> exact htrans hhead hrest

theorem linkDescriptors_confined {families : List FontFamily} (ht : t.IsTree)
    (h : ∀ j ∈ turns k.descriptorEdit mode t families,
      k.guard.Faithful j.1 (k.descriptorPath j.2)) :
    (k.linkDescriptors mode t families).2.IsTree ∧
      Confined k.guard t (k.linkDescriptors mode t families).2 := by
  have hrun : t.IsTree → (k.linkDescriptors mode t families).2.IsTree ∧
      Confined k.guard t (k.linkDescriptors mode t families).2 := by
    refine runEdits_preserves (P := fun t u => t.IsTree → u.IsTree ∧ Confined k.guard t u)
      (fun t ht => ⟨ht, .refl _ t⟩)
      (fun htu huv ht => ⟨(huv (htu ht).1).1, (htu ht).2.trans (huv (htu ht).1).2⟩) ?_
    intro j hj e he hu
    obtain ⟨r, hr, hfile, -⟩ := descriptorEdit_eq_ok he
    obtain ⟨hnamed, hcheck⟩ := named_of_validate hr
    have htouched := runEdit_touched hu hnamed (h j hj r hr) hfile mode
    exact ⟨htouched.isTree, .of_touched htouched hcheck⟩
  exact hrun ht

end Linker

/-! ## Patches -/

namespace Patching

variable {t u : FileTree} {g : Guard} {d : Dialect} {mode : RunMode} {l : Location}
  {patches : List SourcePatch}

theorem snd_runFile (d : Dialect) (mode : RunMode) (t : FileTree) (l : Location)
    (patches : List SourcePatch) : (runFile d mode t l patches).2 = t ∨
      ∃ found, t.readText l.path = .ok found ∧
        (runFile d mode t l patches).2 = ((planEdit l.path found patches d).apply t).2 := by
  unfold runFile
  cases hread : t.readText l.path with
  | error cause => exact .inl rfl
  | ok found =>
    simp only
    split
    · exact .inl rfl
    · refine .inr ⟨found, rfl, ?_⟩
      cases (planEdit l.path found patches d).apply t with
      | mk result u => cases result <;> rfl

/-- What is read under the path of a place, on a straight way, is there. -/
theorem get?_ne_none_of_readText {found : String} (hnamed : l.Named)
    (hl : t.Straight l.dropLast) (h : t.readText l.path = .ok found) : t.get? l ≠ none := by
  unfold readText at h
  cases hm : t.locate l.path with
  | error cause =>
    rw [hm] at h
    nomatch h
  | ok m =>
    rcases List.eq_nil_or_concat' l with rfl | ⟨d, name, rfl⟩
    · rw [t.get?_nil]
      nofun
    · rw [List.dropLast_concat] at hl
      obtain ⟨hallowed, n, hn, hleads⟩ := (locate_path_eq_ok_iff hnamed).1 hm
      obtain ⟨i, j, c, hij, hd, hname⟩ := hleads.split
      have hdl : d <+: d ++ [name] := List.prefix_append _ _
      obtain ⟨-, rfl⟩ := hl.eq_of_leads (hnamed.above hdl)
        (hallowed.of_isPrefix (Location.path_text_ne d) (Location.path_prefix_path hdl)) (by omega)
        hd hname.directory_of_cons
      have hdots := (hnamed name (by simp)).2
      cases hname with
      | stay => exact absurd rfl hdots.1
      | up => exact absurd rfl hdots.2
      | down _ _ _ _ hnode => rw [hnode]; nofun
      | through _ _ _ _ hnode => rw [hnode]; nofun

/-- Patching one file rewrites it where it is. -/
theorem runFile_rewritten (d : Dialect) (mode : RunMode) (patches : List SourcePatch)
    (ht : t.IsTree) (hnamed : l.Named) (hl : t.Straight l.dropLast) (hcheck : g.check l = .ok l) :
    Rewritten t (runFile d mode t l patches).2 ∧ Confined g t (runFile d mode t l patches).2 := by
  rcases snd_runFile d mode t l patches with h | ⟨found, hread, h⟩
  · rw [h]
    exact ⟨.refl t, .refl g t⟩
  · rw [h]
    have htouched : Touched l t ((planEdit l.path found patches d).apply t).2 :=
      FileEdit.apply_touched ht hnamed hl rfl
    have hthere := get?_ne_none_of_readText hnamed hl hread
    refine ⟨⟨htouched.current, fun m => ?_⟩, .of_touched htouched hcheck⟩
    rcases htouched.get? m with heq | ⟨hnone, -, hml⟩ | ⟨rfl, hnot, hfile⟩
    · exact .inl heq
    -- directories are made only where something is missing, and nothing is missing above a file
    · by_cases hne : m = l
      · exact absurd (hne ▸ hnone) hthere
      · rw [ht.above hthere hml hne] at hnone
        nomatch hnone
    · exact .inr ⟨hfile, hnot, hthere⟩

theorem runGroups_confined (d : Dialect) (mode : RunMode)
    {gs : List (Location × List SourcePatch)} (ht : t.IsTree)
    (h : ∀ x ∈ gs, x.1.Named ∧ t.Straight x.1.dropLast ∧ g.check x.1 = .ok x.1) :
    Rewritten t (runGroups d mode t gs).2 ∧ Confined g t (runGroups d mode t gs).2 := by
  induction gs generalizing t with
  | nil =>
    rw [runGroups]
    exact ⟨.refl t, .refl g t⟩
  | cons x gs ih =>
    obtain ⟨l, patches⟩ := x
    obtain ⟨hnamed, hl, hcheck⟩ := h _ List.mem_cons_self
    obtain ⟨hrewritten, hconfined⟩ := runFile_rewritten d mode patches ht hnamed hl hcheck
    rw [runGroups]
    obtain ⟨hrewritten', hconfined'⟩ := ih (hrewritten.isTree ht) fun y hy => by
      obtain ⟨hyn, hys, hyc⟩ := h y (List.mem_cons_of_mem _ hy)
      exact ⟨hyn, hrewritten.straight hys (hyn.above (List.dropLast_prefix _)), hyc⟩
    exact ⟨hrewritten.trans hrewritten', hconfined.trans hconfined'⟩

theorem run_confined (d : Dialect) (mode : RunMode) (ht : t.IsTree)
    (h : ∀ p ∈ patches, g.Faithful t p.file) :
    (run g d mode t patches).2.IsTree ∧ Confined g t (run g d mode t patches).2 := by
  have hgroups : ∀ x ∈ groups (accepted t g patches),
      x.1.Named ∧ t.Straight x.1.dropLast ∧ g.check x.1 = .ok x.1 := by
    intro x hx
    obtain ⟨p, hp⟩ := mem_groups hx
    obtain ⟨hmem, hvalidate⟩ := mem_accepted.1 hp
    obtain ⟨hnamed, hcheck⟩ := named_of_validate hvalidate
    exact ⟨hnamed, h p hmem x.1 hvalidate, hcheck⟩
  obtain ⟨hrewritten, hconfined⟩ := runGroups_confined d mode ht hgroups
  exact ⟨hrewritten.isTree ht, hconfined⟩

end Patching

/-! ## Whole jobs -/

/-- What can be asked of a project. -/
inductive Job where
  | link (plan : LinkPlan)
  | unlink (families : List String)
  | patch (patches : List SourcePatch)

namespace Job

/-- The tree that a job leaves, whether it fails or not. -/
def after (k : Linker) (mode : RunMode) (t : FileTree) : Job → FileTree
  | .link plan => (k.link mode t plan).2
  | .unlink families => (k.unlink mode t families).2
  | .patch patches => (Patching.run k.guard k.dialect mode t patches).2

/-- The paths that a job is given, each with the tree it is judged in. -/
def judged (k : Linker) (mode : RunMode) (t : FileTree) : Job → List (FileTree × Path)
  | .link plan =>
    ((Linker.turns k.descriptorEdit mode t plan.fonts).map fun j => (j.1, k.descriptorPath j.2)) ++
      plan.patches.map fun p => ((k.linkDescriptors mode t plan.fonts).2, p.file)
  | .unlink _ => []
  | .patch patches => patches.map fun p => (t, p.file)

end Job

namespace Linker

variable {t : FileTree} {k : Linker} {mode : RunMode}

theorem faithful_applicationFile {p : Path} (ht : t.IsTree) (h : k.applicationFile t = .ok p) :
    k.guard.Faithful t p := by
  obtain ⟨l, c, rfl, hfile, -⟩ := applicationFile_eq_ok ht h
  exact faithful_of_reached (ht.reached (holds_of_file hfile))

/-- A job whose paths are judged faithfully writes only where it may, and loses no file. -/
theorem job_confined (job : Job) (ht : t.IsTree)
    (h : ∀ j ∈ job.judged k mode t, k.guard.Faithful j.1 j.2) :
    (job.after k mode t).IsTree ∧ Confined k.guard t (job.after k mode t) := by
  cases job with
  | link plan =>
    simp only [Job.judged, List.forall_mem_append, List.forall_mem_map] at h
    obtain ⟨hturns, hpaths⟩ := h
    obtain ⟨ht', hconfined⟩ := linkDescriptors_confined ht hturns
    rw [Job.after]
    cases hlink : k.linkDescriptors mode t plan.fonts with
    | mk result u =>
      rw [hlink] at ht' hconfined hpaths
      cases result with
      | error cause =>
        rw [link_of_error hlink]
        exact ⟨ht', hconfined⟩
      | ok results =>
        cases hpatches : k.fontPatches u plan.fonts with
        | error cause =>
          rw [link_of_ok_error hlink hpatches]
          exact ⟨ht', hconfined⟩
        | ok patches =>
          have hfaithful : ∀ p ∈ patches ++ plan.patches, k.guard.Faithful u p.file := by
            intro p hp
            rcases List.mem_append.1 hp with hp | hp
            · exact faithful_applicationFile ht' (file_of_mem_fontPatches hpatches hp)
            · exact hpaths p hp
          obtain ⟨ht'', hconfined'⟩ := Patching.run_confined k.dialect mode ht' hfaithful
          rw [link_of_ok_ok hlink hpatches]
          exact ⟨ht'', hconfined.trans hconfined'⟩
  | unlink families =>
    rw [Job.after]
    cases hpatches : k.unlinkPatches t families with
    | error cause =>
      rw [unlink_of_error hpatches]
      exact ⟨ht, .refl _ _⟩
    | ok patches =>
      rw [unlink_of_ok hpatches]
      exact Patching.run_confined k.dialect mode ht fun p hp =>
        faithful_applicationFile ht (file_of_mem_unlinkPatches hpatches hp)
  | patch patches =>
    exact Patching.run_confined k.dialect mode ht fun p hp => h (t, p.file) (List.mem_map.2 ⟨p, hp, rfl⟩)

/-- A project whose resources are a link to another of its directories. -/
def sharedResources : FileTree where
  nodes := [(["android"], .directory), (["android", "app"], .directory),
    (["android", "app", "src"], .directory), (["android", "app", "src", "main"], .directory),
    (["android", "app", "src", "main", "res"], .link ⟨"/android/res/"⟩),
    (["android", "res"], .directory)]
  current := []

def oneFamily : FontFamily := ⟨"Lato", none, [⟨"Lato.ttf", 400, false⟩]⟩

/-- The descriptor goes where the link leads, which is in the project. -/
theorem job_confined_shared :
    ((Job.link ⟨⟨"", none, none⟩, [oneFamily], []⟩).after ⟨⟨["android"]⟩, .java⟩ .write
      sharedResources).get? ["android", "res", "font", "lato.xml"] =
        some (.file (.text (Descriptor.build oneFamily.files).toXml)) ∧
    Confined ⟨["android"]⟩ sharedResources
      ((Job.link ⟨⟨"", none, none⟩, [oneFamily], []⟩).after ⟨⟨["android"]⟩, .java⟩ .write
        sharedResources) := by
  have htree : sharedResources.IsTree := .of_nodes (by decide +kernel)
  refine ⟨by decide +kernel, (@job_confined _ ⟨⟨["android"]⟩, .java⟩ .write _ htree ?_).2⟩
  intro j hj
  have hfaithful : (Guard.mk ["android"]).Faithful sharedResources
      (descriptorPath ⟨⟨["android"]⟩, .java⟩ oneFamily) :=
    faithful_of_limits (.inr (by decide +kernel))
  simp only [Job.judged, List.map_nil, List.append_nil, List.mem_map] at hj
  obtain ⟨x, hx, rfl⟩ := hj
  obtain rfl : x = (sharedResources, oneFamily) := by
    rw [turns] at hx
    rcases List.mem_cons.1 hx with hx | hx
    · exact hx
    · split at hx <;> simp [turns] at hx
  exact hfaithful

/-! ## Past the limits -/

/-- A project with links to itself and one to a directory beside it. -/
def bridgedProject : FileTree where
  nodes := [(["android"], .directory), (["android", "here"], .link ⟨"."⟩),
    (["android", "far"], .link ⟨"here/here/here/here/here/here/here/here/here"⟩),
    (["android", "out"], .link ⟨"../outside"⟩), (["outside"], .directory),
    (["outside", "Main.java"], .file (.text "old\nkept"))]
  current := []

/-- Forty links lead to the project, so `out` is one too many and is taken for a name that is yet to
be made. -/
def farPatch : SourcePatch where
  id := "far"
  file := ⟨"far/far/far/far/out/Main.java"⟩
  operation := .removeLines "old"

theorem patch_through_link :
    ((Job.patch [farPatch]).after ⟨⟨["android"]⟩, .java⟩ .write bridgedProject).get?
      ["outside", "Main.java"] = some (.file (.text "kept")) ∧
    ¬ Confined ⟨["android"]⟩ bridgedProject
      ((Job.patch [farPatch]).after ⟨⟨["android"]⟩, .java⟩ .write bridgedProject) := by
  have hwritten : ((Job.patch [farPatch]).after ⟨⟨["android"]⟩, .java⟩ .write bridgedProject).get?
      ["outside", "Main.java"] = some (.file (.text "kept")) := by decide +kernel
  refine ⟨hwritten, fun h => ?_⟩
  have hroot := (h.written _ _ hwritten (by decide)).1
  exact absurd hroot (by decide)

end Linker

end AndroidFonts
