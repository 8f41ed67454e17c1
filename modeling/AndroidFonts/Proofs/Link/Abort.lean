/-
# `AndroidFonts.Proofs.Link.Abort` — a run that fails has patched nothing

A run fails where a descriptor cannot be planned, or where the application class is not found after
the last of them.  Patches come after that and never end a run.  So all that a failed run can have
written are the descriptors of the families in front of the one that it failed at, and every place
holds what the last of these put there, or else the file that it held before
(`Linker.link_aborted`).

Where a descriptor was written is said by where its path leads once it was (`Linker.Writes`), so
nothing has to be known of the links on the way.  If the path was judged faithfully it is the accepted
place (`Linker.Writes.validate`).  A descriptor may be a link to any file of the project, so its place
can be that of the application class, too (`Linker.application_overwritten`).
-/
import AndroidFonts.Proofs.Link.Confinement
import AndroidFonts.Proofs.Link.Descriptors
import AndroidFonts.Proofs.Link.DryRun

namespace AndroidFonts

open FileTree

namespace Linker

variable {t t' u : FileTree} {k : Linker} {f : FontFamily} {e : FileEdit} {l m : Location}
  {s s' : String} {j : FileTree × FontFamily} {js is : List (FileTree × FontFamily)}

/-! ## One turn -/

/-- A step that writes leaves the tree alone, fails to put its file in, or puts it in. -/
theorem runEdit_write_cases (t : FileTree) (e : FileEdit) :
    ((runEdit .write t e).2 = t ∧ ∀ p, (runEdit .write t e).1 ≠ .ok (.applied p)) ∨
    (∃ cause, e.install t = (.error cause, (runEdit .write t e).2) ∧
      (runEdit .write t e).1 = .error (.edit cause)) ∨
    ∃ o, e.install t = (.ok o, (runEdit .write t e).2) ∧
      (runEdit .write t e).1 = .ok (.applied e.file) := by
  by_cases hnoop : e.isNoop = true
  · rw [runEdit_of_noop hnoop]
    exact .inl ⟨rfl, by simp⟩
  rw [runEdit, if_neg hnoop, if_neg (by decide)]
  rcases e.apply_cases t with ⟨cause, h⟩ | ⟨h, -⟩ | ⟨h, -⟩
  · rw [h]
    exact .inl ⟨rfl, by simp⟩
  · rw [h]
    exact .inl ⟨rfl, by simp⟩
  · rw [h]
    cases hinstall : e.install t with
    | mk result u =>
      cases result with
      | error cause => exact .inr (.inl ⟨cause, rfl, rfl⟩)
      | ok o =>
        obtain rfl := (FileEdit.install_applied hinstall).1
        exact .inr (.inr ⟨_, rfl, rfl⟩)

/-- On its turn a family has its descriptor written: the path leads to the new file, which holds the
new text. -/
def Writes (k : Linker) (j : FileTree × FontFamily) (l : Location) (s : String) : Prop :=
  ∃ e, k.descriptorEdit j.1 j.2 = .ok e ∧ (runEdit .write j.1 e).1 = .ok (.applied e.file) ∧
    (runEdit .write j.1 e).2.locate e.file = .ok l ∧ s = e.after

theorem Writes.unique (h : k.Writes j l s) (h' : k.Writes j m s') : l = m ∧ s = s' := by
  obtain ⟨e, he, -, hl, rfl⟩ := h
  obtain ⟨e', he', -, hm, rfl⟩ := h'
  obtain rfl := Except.ok.inj (he.symm.trans he')
  exact ⟨Except.ok.inj (hl.symm.trans hm), rfl⟩

/-- A place holds what the last of some families put there on their turns, or the file that it held
before if none of them did. -/
def HoldsLast (k : Linker) (js : List (FileTree × FontFamily)) (t t' : FileTree) (l : Location) :
    Prop :=
  (SameFile t t' l ∧ ∀ j ∈ js, ∀ s, ¬ k.Writes j l s) ∨
    ∃ is j hs s, js = is ++ j :: hs ∧ k.Writes j l s ∧ (∀ i ∈ hs, ∀ s', ¬ k.Writes i l s') ∧
      t'.get? l = some (.file (.text s))

namespace HoldsLast

theorem append (h : k.HoldsLast is t u l) (h' : k.HoldsLast js u t' l) :
    k.HoldsLast (is ++ js) t t' l := by
  rcases h' with ⟨hsame', hnone'⟩ | ⟨as, j, bs, s, rfl, hj, hbs, hl⟩
  · rcases h with ⟨hsame, hnone⟩ | ⟨as, j, bs, s, rfl, hj, hbs, hl⟩
    · exact .inl ⟨hsame.trans hsame', List.forall_mem_append.2 ⟨hnone, hnone'⟩⟩
    · exact .inr ⟨as, j, bs ++ js, s, by simp, hj, List.forall_mem_append.2 ⟨hbs, hnone'⟩,
        (hsame' _).2 hl⟩
  · exact .inr ⟨is ++ as, j, bs, s, by simp, hj, hbs, hl⟩

/-- The turn of a family: its planned edit changes the file at the place that it writes, if it writes
any, and no other file. -/
theorem turn (ht : t.IsTree) (he : k.descriptorEdit t f = .ok e) :
    (runEdit .write t e).2.IsTree ∧ ∀ l, k.HoldsLast [(t, f)] t (runEdit .write t e).2 l := by
  obtain ⟨r, d, hr, hfile, hread, -, -⟩ := base_of_descriptorEdit he
  obtain ⟨hnamed, -⟩ := Guard.named_of_validate hr
  obtain ⟨d, name, rfl⟩ :=
    (List.eq_nil_or_concat' r).resolve_left (Guard.ne_nil_of_readText hread)
  -- a turn whose step is not reported as applied writes nothing
  have hquiet : (∀ p, (runEdit .write t e).1 ≠ .ok (.applied p)) → ∀ l s, ¬ k.Writes (t, f) l s := by
    rintro hne l s ⟨e', he', hrun, -, -⟩
    obtain rfl := Except.ok.inj (he.symm.trans he')
    exact hne _ hrun
  rcases runEdit_write_cases t e with ⟨hsame, hne⟩ | ⟨cause, hinstall, hrun⟩ | ⟨o, hinstall, hrun⟩
  · rw [hsame]
    exact ⟨ht, fun l => .inl ⟨.refl t l, List.forall_mem_singleton.2 (hquiet hne l)⟩⟩
  · have hu := FileEdit.install_error ht hinstall
    have hne : ∀ p, (runEdit .write t e).1 ≠ .ok (.applied p) := by
      rw [hrun]
      nofun
    exact ⟨hu.isTree, fun l => .inl ⟨hu.sameFile l, List.forall_mem_singleton.2 (hquiet hne l)⟩⟩
  · obtain ⟨m, u, hinstalled, hu⟩ := FileEdit.install_eq_ok ht hnamed hfile hinstall
    have hlocate := hinstalled.locate ht hnamed hread (.text e.after)
    rw [← hu, ← hfile] at hlocate
    have hwrites : k.Writes (t, f) (m ++ [name]) e.after := ⟨e, he, hrun, hlocate, rfl⟩
    refine ⟨hu ▸ hinstalled.isTree hnamed, fun l => ?_⟩
    by_cases hl : l = m ++ [name]
    · subst hl
      exact .inr ⟨[], _, [], _, rfl, hwrites, nofun, hu ▸ FileEdit.Installed.get? u m name _⟩
    · exact .inl ⟨hu ▸ hinstalled.sameFile hl, List.forall_mem_singleton.2 fun s h =>
        hl (h.unique hwrites).1⟩

end HoldsLast

/-- A descriptor that was written is at the accepted place, if the path was judged faithfully. -/
theorem Writes.validate (hj : j.1.IsTree) (h : k.Writes j l s)
    (hfaithful : k.guard.Faithful j.1 (k.descriptorPath j.2)) :
    k.guard.validate j.1 (k.descriptorPath j.2) = .ok l := by
  obtain ⟨e, he, hrun, hlocate, -⟩ := h
  obtain ⟨r, d, hr, hfile, hread, -, -⟩ := base_of_descriptorEdit he
  obtain ⟨hnamed, -⟩ := Guard.named_of_validate hr
  have hstraight := hfaithful r hr
  obtain ⟨d, name, rfl⟩ :=
    (List.eq_nil_or_concat' r).resolve_left (Guard.ne_nil_of_readText hread)
  rw [List.dropLast_concat] at hstraight
  rcases runEdit_write_cases j.1 e with ⟨-, hne⟩ | ⟨cause, -, herror⟩ | ⟨o, hinstall, -⟩
  · exact absurd hrun (hne _)
  · rw [herror] at hrun
    cases hrun
  · obtain ⟨m, u, hinstalled, hu⟩ := FileEdit.install_eq_ok hj hnamed hfile hinstall
    have hplace := hinstalled.locate hj hnamed hread (.text e.after)
    rw [← hu, ← hfile] at hplace
    obtain rfl := Except.ok.inj (hlocate.symm.trans hplace)
    rw [hr, hinstalled.eq_of_straight hnamed hstraight]

/-! ## All turns -/

/-- The tree of each turn is one. -/
theorem isTree_of_mem_turns {families : List FontFamily} (ht : t.IsTree)
    (h : j ∈ turns k.descriptorEdit .write t families) : j.1.IsTree := by
  induction families generalizing t with
  | nil => cases h
  | cons f families ih =>
    rw [turns] at h
    rcases List.mem_cons.1 h with rfl | h
    · exact ht
    · cases he : k.descriptorEdit t f with
      | error cause =>
        rw [he] at h
        cases h
      | ok e =>
        rw [he] at h
        exact ih (HoldsLast.turn ht he).1 h

/-- After all descriptors could be planned, every place holds what the last of them put there. -/
theorem linkDescriptors_holdsLast {families : List FontFamily} {results : List StepResult}
    (ht : t.IsTree) (h : k.linkDescriptors .write t families = (.ok results, u)) (l : Location) :
    k.HoldsLast (turns k.descriptorEdit .write t families) t u l := by
  induction families generalizing t results with
  | nil =>
    obtain rfl := (Prod.mk.inj h).2
    exact .inl ⟨.refl t l, nofun⟩
  | cons f families ih =>
    obtain ⟨e, rest, he, hrest, -⟩ := runEdits_cons_eq_ok h
    obtain ⟨hu, hturn⟩ := HoldsLast.turn ht he
    rw [turns, he]
    exact (hturn l).append (ih hu hrest)

/-! ## The run -/

/-- A run that fails has seen to the descriptors of some first families, and failed at the next one or
at the application class.  Every place holds what the last of these families put there, or the file
that it held before. -/
theorem link_aborted {plan : LinkPlan} {cause : LinkError} (ht : t.IsTree)
    (h : k.link .write t plan = (.error cause, t')) :
    ∃ done rest, plan.fonts = done ++ rest ∧
      ((∃ f fs, rest = f :: fs ∧ k.descriptorEdit t' f = .error cause) ∨
        (rest = [] ∧ k.applicationFile t' = .error cause)) ∧
      (∀ l, k.HoldsLast (turns k.descriptorEdit .write t done) t t' l) ∧
      (∀ j ∈ turns k.descriptorEdit .write t done, ∀ l s, k.Writes j l s →
        k.guard.Faithful j.1 (k.descriptorPath j.2) →
          k.guard.validate j.1 (k.descriptorPath j.2) = .ok l) ∧
      (done = [] → t' = t) := by
  obtain ⟨done, rest, results, hsplit, hwhere, hdone⟩ : ∃ done rest results,
      plan.fonts = done ++ rest ∧
      ((∃ f fs, rest = f :: fs ∧ k.descriptorEdit t' f = .error cause) ∨
        (rest = [] ∧ k.applicationFile t' = .error cause)) ∧
      k.linkDescriptors .write t done = (.ok results, t') := by
    rcases link_eq_error h with herror | ⟨⟨results, hdone⟩, happlication⟩
    · obtain ⟨done, f, fs, results, hsplit, hdone, hf⟩ := runEdits_eq_error herror
      exact ⟨done, f :: fs, results, hsplit, .inl ⟨f, fs, rfl, hf⟩, hdone⟩
    · exact ⟨plan.fonts, [], results, (List.append_nil _).symm, .inr ⟨rfl, happlication⟩, hdone⟩
  refine ⟨done, rest, hsplit, hwhere, linkDescriptors_holdsLast ht hdone, fun j hj l s hw hf =>
    hw.validate (isTree_of_mem_turns ht hj) hf, ?_⟩
  rintro rfl
  exact (Prod.mk.inj hdone).2.symm

/-- A project in which one descriptor is a link to the file of the application class, and another is
no XML. -/
def linkedProject : FileTree where
  nodes := [(["android"], .directory), (["android", "app"], .directory),
    (["android", "app", "src"], .directory), (["android", "app", "src", "main"], .directory),
    (["android", "app", "src", "main", "java"], .directory),
    (["android", "app", "src", "main", "java", "MainApplication.java"],
      .file (.text "<font-family/>")),
    (["android", "app", "src", "main", "res"], .directory),
    (["android", "app", "src", "main", "res", "font"], .directory),
    (["android", "app", "src", "main", "res", "font", "lato.xml"],
      .link ⟨"../../java/MainApplication.java"⟩),
    (["android", "app", "src", "main", "res", "font", "inter.xml"], .file (.text "inter"))]
  current := []

def linkedPlan : LinkPlan where
  info := ⟨"", none, none⟩
  fonts := [⟨"Lato", none, [⟨"a.ttf", 400, false⟩]⟩, ⟨"Inter", none, [⟨"b.ttf", 400, false⟩]⟩]
  patches := []

def linkedClass : Location := ["android", "app", "src", "main", "java", "MainApplication.java"]

/-- The run writes the first descriptor and fails at the second. -/
theorem link_linked : plainLinker.link .write linkedProject linkedPlan =
    (.error (.descriptor ⟨"/android/app/src/main/res/font/inter.xml"⟩ .malformed),
      linkedProject.put linkedClass
        (.file (.text (Descriptor.build [⟨"a.ttf", 400, false⟩]).toXml))) := by
  decide +kernel

theorem link_aborted_linked : ∃ cause t',
    plainLinker.link .write linkedProject linkedPlan = (.error cause, t') ∧
    ∃ done rest, linkedPlan.fonts = done ++ rest ∧ done ≠ [] ∧ rest ≠ [] ∧
      ∀ l, plainLinker.HoldsLast (turns plainLinker.descriptorEdit .write linkedProject done)
        linkedProject t' l := by
  have htree : linkedProject.IsTree := .of_nodes (by decide +kernel)
  obtain ⟨done, rest, hsplit, hwhere, hlast, -, hfirst⟩ := link_aborted htree link_linked
  refine ⟨_, _, link_linked, done, rest, hsplit, fun hdone => ?_, fun hrest => ?_, hlast⟩
  · have hsame := congrArg (fun t => t.get? linkedClass) (hfirst hdone)
    exact absurd hsame (by decide +kernel)
  · obtain ⟨f, fs, hcons, -⟩ | ⟨-, happlication⟩ := hwhere
    · rw [hrest] at hcons
      cases hcons
    · exact absurd happlication (by decide +kernel)

/-- A run that fails can have overwritten the application class, as the place of a descriptor. -/
theorem application_overwritten : ∃ cause t',
    plainLinker.link .write linkedProject linkedPlan = (.error cause, t') ∧
    plainLinker.applicationFile linkedProject = .ok linkedClass.path ∧
    linkedProject.get? linkedClass = some (.file (.text "<font-family/>")) ∧
    t'.get? linkedClass ≠ some (.file (.text "<font-family/>")) :=
  ⟨_, _, link_linked, by decide +kernel, by decide +kernel, by decide +kernel⟩

end Linker

end AndroidFonts
