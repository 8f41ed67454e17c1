/-
# `AndroidFonts.Proofs.Link.Rehearsal` — a dry run of patches tells what a run would do

Patches to one file are run on its text in memory, so the steps of a dry run and of a run differ only
in the files: a run finds each file as the groups before it have left it.  Two groups have different
files (`Patching.nodup_groups`), and a file that is patched was there, so nothing that a later group
reads has changed.  Hence the results are the same, and the edits of the preview are made
(`Patching.run_check_of_write`).  What it takes is that no accepted place has a link on it, and that
the edits can be made: a dry run does not try to write.
-/
import AndroidFonts.Proofs.Link.Steps
import AndroidFonts.Proofs.Tree.Making

namespace AndroidFonts

open FileTree

deriving instance DecidableEq for StepResult

namespace Patching

variable {t t' u u' : FileTree} {g : Guard} {d : Dialect} {mode : RunMode} {l m : Location}
  {patches : List SourcePatch} {gs : List (Location × List SourcePatch)} {e : FileEdit}

/-! ## Groups have different files -/

theorem nodup_addToGroup {p : SourcePatch} (h : (gs.map Prod.fst).Nodup) :
    ((addToGroup l p gs).map Prod.fst).Nodup := by
  induction gs with
  | nil => simp [addToGroup]
  | cons x gs ih =>
    obtain ⟨k, ps⟩ := x
    rw [List.map_cons, List.nodup_cons] at h
    rw [addToGroup]
    split
    · exact List.nodup_cons.2 h
    · rename_i hne
      rw [List.map_cons, List.nodup_cons]
      refine ⟨fun hmem => ?_, ih h.2⟩
      obtain ⟨y, hy, hyk⟩ := List.mem_map.1 hmem
      rcases mem_addToGroup hy with heq | ⟨z, hz, hzy⟩
      · exact hne (hyk.symm.trans heq)
      · exact h.1 (List.mem_map.2 ⟨z, hz, hzy.trans hyk⟩)

theorem nodup_groups (resolved : List (Location × SourcePatch)) :
    ((groups resolved).map Prod.fst).Nodup := by
  have hfold : ∀ {resolved : List (Location × SourcePatch)} {gs}, (gs.map Prod.fst).Nodup →
      ((resolved.foldl (fun groups (l, p) => addToGroup l p groups) gs).map Prod.fst).Nodup := by
    intro resolved
    induction resolved with
    | nil => exact id
    | cons head resolved ih => exact fun h => ih (nodup_addToGroup h)
  exact hfold List.nodup_nil

/-! ## One group -/

/-- The edit that a group would make, if any. -/
def groupEdit (d : Dialect) (t : FileTree) (x : Location × List SourcePatch) : Option FileEdit :=
  match t.readText (Location.path x.1) with
  | .error _ => none
  | .ok found =>
    let edit := planEdit (Location.path x.1) found x.2 d
    if edit.isNoop then none else some edit

/-- The edits that some groups would make. -/
def groupEdits (d : Dialect) (t : FileTree) (gs : List (Location × List SourcePatch)) :
    List FileEdit := gs.filterMap (groupEdit d t)

theorem preview_eq (g : Guard) (d : Dialect) (t : FileTree) (patches : List SourcePatch) :
    preview g d t patches = groupEdits d t (groups (accepted t g patches)) := rfl

theorem groupEdit_of_error {cause : IoError} {x : Location × List SourcePatch}
    (h : t.readText (Location.path x.1) = .error cause) : groupEdit d t x = none := by
  rw [groupEdit, h]

theorem groupEdit_of_ok {found : String} {x : Location × List SourcePatch}
    (h : t.readText (Location.path x.1) = .ok found) :
    groupEdit d t x = if (planEdit (Location.path x.1) found x.2 d).isNoop then none
      else some (planEdit (Location.path x.1) found x.2 d) := by
  rw [groupEdit, h]

theorem groupEdit_congr {x : Location × List SourcePatch}
    (h : t'.readText (Location.path x.1) = t.readText (Location.path x.1)) :
    groupEdit d t' x = groupEdit d t x := by
  rw [groupEdit, groupEdit, h]

/-- The edit of a group is for its file, and knows the text that is there. -/
theorem groupEdit_eq_some {x : Location × List SourcePatch} (h : groupEdit d t x = some e) :
    e.isNoop = false ∧ e.file = Location.path x.1 ∧
      ∃ found, t.readText e.file = .ok found ∧ e.before = some found := by
  cases hread : t.readText (Location.path x.1) with
  | error cause =>
    rw [groupEdit_of_error hread] at h
    nomatch h
  | ok found =>
    rw [groupEdit_of_ok hread] at h
    split at h
    · nomatch h
    · rename_i hnoop
      obtain rfl := Option.some.inj h
      exact ⟨Bool.eq_false_iff.2 hnoop, rfl, found, hread, rfl⟩

theorem read_of_mem_groupEdits (h : e ∈ groupEdits d t gs) : e.isNoop = false ∧
    ∃ x ∈ gs, e.file = Location.path x.1 ∧
      ∃ found, t.readText e.file = .ok found ∧ e.before = some found := by
  obtain ⟨x, hx, he⟩ := List.mem_filterMap.1 h
  obtain ⟨hnoop, hfile, hread⟩ := groupEdit_eq_some he
  exact ⟨hnoop, x, hx, hfile, hread⟩

theorem groupEdits_congr (h : ∀ x ∈ gs, t'.readText (Location.path x.1) =
    t.readText (Location.path x.1)) : groupEdits d t' gs = groupEdits d t gs :=
  List.filterMap_congr fun x hx => groupEdit_congr (h x hx)

theorem groupEdits_cons (x : Location × List SourcePatch) :
    groupEdits d t (x :: gs) = groupEdits d t [x] ++ groupEdits d t gs := by
  rw [groupEdits, groupEdits, groupEdits, ← List.filterMap_append]
  rfl

theorem file_outcomeOf (file : Path) (x : Except PatchError TextPatch) :
    (outcomeOf file x).file = file := by
  rcases x with e | ⟨text⟩ | _
  · rw [outcomeOf]
    split
    · rfl
    · rfl
  · rfl
  · rfl

theorem snd_runFile_check (d : Dialect) (t : FileTree) (l : Location)
    (patches : List SourcePatch) : (runFile d .check t l patches).2 = t := by
  unfold runFile
  cases t.readText l.path with
  | error cause => rfl
  | ok found => rfl

theorem runFile_of_error {cause : IoError} (h : t.readText l.path = .error cause) :
    runFile d mode t l patches = (patches.map fun p => ⟨p.id, .error (.io l.path cause)⟩, t) := by
  rw [runFile, h]

/-- The results of a group whose file was read, and written if need be. -/
def resultsOf (d : Dialect) (l : Location) (found : String) (patches : List SourcePatch) :
    List StepResult :=
  (planOutcomes l.path found patches d).map fun (id, outcome) => ⟨id, .ok outcome⟩

theorem runFile_of_quiet {found : String} (h : t.readText l.path = .ok found)
    (hquiet : mode = .check ∨ (planEdit l.path found patches d).isNoop = true) :
    runFile d mode t l patches = (resultsOf d l found patches, t) := by
  have hcond : (decide (mode = .check) || (planEdit l.path found patches d).isNoop) = true := by
    rw [Bool.or_eq_true, decide_eq_true_eq]
    exact hquiet
  rw [runFile, h]
  simp only [hcond, if_true]
  rfl

theorem runFile_of_write {found : String} {o : EditOutcome} (h : t.readText l.path = .ok found)
    (hnoop : (planEdit l.path found patches d).isNoop = false)
    (happly : (planEdit l.path found patches d).apply t = (.ok o, u)) :
    runFile d .write t l patches = (resultsOf d l found patches, u) := by
  rw [runFile, h]
  simp only [hnoop, happly, reduceCtorEq, decide_false, Bool.or_self, Bool.false_eq_true, if_false]
  rfl

theorem runFile_of_refused {found : String} {cause : EditError}
    (h : t.readText l.path = .ok found)
    (hnoop : (planEdit l.path found patches d).isNoop = false)
    (happly : (planEdit l.path found patches d).apply t = (.error cause, u)) :
    runFile d .write t l patches =
      ((planOutcomes l.path found patches d).map
        fun (id, o) => ⟨id, .ok (unwritten cause.message o)⟩, u) := by
  rw [runFile, h]
  simp only [hnoop, happly, reduceCtorEq, decide_false, Bool.or_self, Bool.false_eq_true, if_false]

/-- A group whose edit can be made comes to what a dry run says, and makes the edit. -/
theorem runFile_check_of_write (ht : t.IsTree) (hnamed : l.Named) (hl : t.Unlinked l)
    (hw : ∀ e ∈ groupEdits d t [(l, patches)], t.Writable l) :
    (runFile d .write t l patches).1 = (runFile d .check t l patches).1 ∧
      Made (groupEdits d t [(l, patches)]) t (runFile d .write t l patches).2 ∧
      Grown [l] t (runFile d .write t l patches).2 ∧
      ((runFile d .write t l patches).2 = t ∨ ∃ c, t.get? l = some (.file c)) := by
  rw [groupEdits, List.filterMap_cons, List.filterMap_nil] at hw ⊢
  cases hread : t.readText l.path with
  | error cause =>
    rw [runFile_of_error hread, runFile_of_error hread,
      groupEdit_of_error (x := (l, patches)) hread]
    exact ⟨rfl, .refl ht, .refl ht, .inl rfl⟩
  | ok found =>
    rw [groupEdit_of_ok (x := (l, patches)) hread] at hw ⊢
    rw [runFile_of_quiet hread (.inl rfl)]
    cases hnoop : (planEdit l.path found patches d).isNoop with
    | true =>
      rw [runFile_of_quiet hread (.inr hnoop)]
      exact ⟨rfl, .refl ht, .refl ht, .inl rfl⟩
    | false =>
      have hcurrent : FileEdit.currentText t (planEdit l.path found patches d).file =
          .ok (planEdit l.path found patches d).before :=
        FileEdit.currentText_eq_ok_iff.2 (.inl ⟨found, hread, rfl⟩)
      have hwritable : t.Writable l := by
        refine hw (planEdit l.path found patches d) ?_
        simp only [hnoop, Bool.false_eq_true, if_false, List.mem_singleton]
      obtain ⟨hok, hmade⟩ :=
        FileEdit.made_of_writable ht hnamed hl rfl hcurrent hnoop hwritable
      have htouched := FileEdit.apply_touched (e := planEdit l.path found patches d) ht hnamed
        (hl.straight.of_isPrefix (List.dropLast_prefix l)) rfl
      obtain ⟨-, hfile⟩ := (hl.readText_path_eq_ok_iff ht hnamed).1 hread
      cases happly : (planEdit l.path found patches d).apply t with
      | mk result u =>
        rw [happly] at hok hmade htouched
        obtain rfl := hok
        rw [runFile_of_write hread hnoop happly]
        exact ⟨rfl, hmade, .of_touched htouched hl, .inr ⟨_, hfile⟩⟩

/-! ## What one group leaves to the others -/

/-- Where a file was rewritten, everything else reads as before. -/
theorem readText_of_rewritten {c : Contents} (h : Grown [l] t t') (ht : t.IsTree)
    (hl : t.get? l = some (.file c)) (hnamed : m.Named) (hm : t.Unlinked m) (hne : m ≠ l) :
    t'.readText m.path = t.readText m.path := by
  have hsame : ∀ k, t'.get? k = t.get? k ∨ k = l ∧ ∃ c', t'.get? k = some (.file c') := by
    intro k
    rcases h.get? k with heq | ⟨hdir, r, hr, hkr, -⟩
    · exact .inl heq
    · obtain rfl := List.mem_singleton.1 hr
      by_cases heq : k = r
      · exact .inr ⟨heq, heq ▸ h.grows.file hl⟩
      · exact absurd (ht.above (by rw [hl]; nofun) hkr heq) hdir
  refine readText_path_congr hnamed (h.grows.unlinked hm) hm (fun k _ => ?_) ?_
  · rcases hsame k with heq | ⟨rfl, c', hc'⟩
    · rw [heq]
      exact ⟨.rfl, .rfl⟩
    · simp [hl, hc']
  · rcases hsame m with heq | ⟨heq, -⟩
    · exact heq
    · exact absurd heq hne

/-- What a dry run says depends only on what is read in the files. -/
theorem runGroups_check_congr (h : ∀ x ∈ gs, t'.readText (Location.path x.1) =
    t.readText (Location.path x.1)) :
    (runGroups d .check t' gs).1 = (runGroups d .check t gs).1 := by
  induction gs generalizing t t' with
  | nil => rfl
  | cons x gs ih =>
    obtain ⟨l, patches⟩ := x
    have hhead : (runFile d .check t' l patches).1 = (runFile d .check t l patches).1 := by
      have hread := h (l, patches) List.mem_cons_self
      cases hfound : t.readText l.path with
      | error cause =>
        rw [hfound] at hread
        rw [runFile_of_error hfound, runFile_of_error hread]
      | ok found =>
        rw [hfound] at hread
        rw [runFile_of_quiet hfound (.inl rfl), runFile_of_quiet hread (.inl rfl)]
    simp only [runGroups, snd_runFile_check, hhead, ih fun x hx => h x (List.mem_cons_of_mem _ hx)]

theorem snd_runGroups_check (d : Dialect) (t : FileTree)
    (gs : List (Location × List SourcePatch)) : (runGroups d .check t gs).2 = t := by
  induction gs generalizing t with
  | nil => rfl
  | cons x gs ih =>
    obtain ⟨l, patches⟩ := x
    simp only [runGroups, snd_runFile_check, ih]

/-! ## Runs -/

theorem snd_run_check (g : Guard) (d : Dialect) (t : FileTree) (patches : List SourcePatch) :
    (run g d .check t patches).2 = t := snd_runGroups_check d t _

theorem accepted_congr
    (h : ∀ p ∈ patches, g.validate t' p.file = g.validate t p.file) :
    accepted t' g patches = accepted t g patches :=
  List.filterMap_congr fun p hp => by rw [h p hp]

theorem refused_congr
    (h : ∀ p ∈ patches, g.validate t' p.file = g.validate t p.file) :
    refused t' g patches = refused t g patches :=
  List.filterMap_congr fun p hp => by rw [h p hp]

/-- A dry run depends only on where paths lead and on what is read there. -/
theorem run_check_congr (d : Dialect)
    (h : ∀ p ∈ patches, g.validate t' p.file = g.validate t p.file)
    (hread : ∀ p ∈ patches, ∀ l, g.validate t p.file = .ok l →
      t'.readText (Location.path l) = t.readText (Location.path l)) :
    (run g d .check t' patches).1 = (run g d .check t patches).1 ∧
      preview g d t' patches = preview g d t patches := by
  have hgroups : ∀ x ∈ groups (accepted t g patches),
      t'.readText (Location.path x.1) = t.readText (Location.path x.1) := by
    intro x hx
    obtain ⟨p, hp⟩ := mem_groups hx
    obtain ⟨hmem, hvalidate⟩ := mem_accepted.1 hp
    exact hread p hmem x.1 hvalidate
  rw [preview_eq, preview_eq]
  simp only [run, accepted_congr h, refused_congr h, runGroups_check_congr hgroups,
    groupEdits_congr hgroups, and_self]

theorem runGroups_check_of_write (ht : t.IsTree) (hnodup : (gs.map Prod.fst).Nodup)
    (hgs : ∀ x ∈ gs, x.1.Named ∧ t.Unlinked x.1)
    (hw : ∀ e ∈ groupEdits d t gs, ∀ l : Location, l.Named → e.file = l.path → t.Writable l) :
    (runGroups d .write t gs).1 = (runGroups d .check t gs).1 ∧
      Made (groupEdits d t gs) t (runGroups d .write t gs).2 := by
  induction gs generalizing t with
  | nil => exact ⟨rfl, .refl ht⟩
  | cons x gs ih =>
    obtain ⟨l, patches⟩ := x
    obtain ⟨hnamed, hl⟩ := hgs _ List.mem_cons_self
    rw [groupEdits_cons] at hw ⊢
    rw [List.map_cons, List.nodup_cons] at hnodup
    obtain ⟨hresults, hmade, hgrown, hwhere⟩ := runFile_check_of_write ht hnamed hl fun e he => by
      obtain ⟨-, x, hx, hfile, -⟩ := read_of_mem_groupEdits he
      obtain rfl := List.mem_singleton.1 hx
      exact hw e (List.mem_append_left _ he) l hnamed hfile
    have hne : ∀ x ∈ gs, x.1 ≠ l := fun x hx heq =>
      hnodup.1 (List.mem_map.2 ⟨x, hx, heq⟩)
    have hread : ∀ x ∈ gs, (runFile d .write t l patches).2.readText (Location.path x.1) =
        t.readText (Location.path x.1) := by
      intro x hx
      rcases hwhere with heq | ⟨c, hc⟩
      · rw [heq]
      · obtain ⟨hxn, hxl⟩ := hgs x (List.mem_cons_of_mem _ hx)
        exact readText_of_rewritten hgrown ht hc hxn hxl (hne x hx)
    have hedits := groupEdits_congr (d := d) hread
    obtain ⟨hrest, hmade'⟩ := ih hgrown.isTree hnodup.2
      (fun x hx => ⟨(hgs x (List.mem_cons_of_mem _ hx)).1,
        hgrown.grows.unlinked (hgs x (List.mem_cons_of_mem _ hx)).2⟩)
      (fun e he m hm hfile => by
        obtain ⟨-, x, hx, hxfile, found, hfound, -⟩ := read_of_mem_groupEdits he
        have hunlinked := hgrown.grows.unlinked (hgs x (List.mem_cons_of_mem _ hx)).2
        obtain rfl := Location.path_injective hm (hgs x (List.mem_cons_of_mem _ hx)).1
          (hfile.symm.trans hxfile)
        rw [hedits] at he
        exact (hw e (List.mem_append_right _ he) x.1 hm hfile).of_readText hgrown.isTree hm
          hunlinked (.inl ⟨found, hxfile ▸ hfound⟩))
    rw [hedits] at hmade'
    have hcheck := runGroups_check_congr (d := d) hread
    refine ⟨?_, hmade.trans hmade' ht fun e he e' he' heq => ?_⟩
    · simp only [runGroups, hresults, hrest, hcheck, snd_runFile_check]
    · obtain ⟨-, x, hx, hfile, -⟩ := read_of_mem_groupEdits he
      obtain ⟨-, x', hx', hfile', -⟩ := read_of_mem_groupEdits he'
      obtain rfl := List.mem_singleton.1 hx
      refine hne x' hx' (Location.path_injective (hgs x' (List.mem_cons_of_mem _ hx')).1 hnamed ?_)
      exact hfile'.symm.trans (heq.symm.trans hfile)

/-- Patches whose edits can be written come to what a dry run says, and make the edits of the
preview. -/
theorem run_check_of_write (d : Dialect) (ht : t.IsTree)
    (hgs : ∀ p ∈ patches, ∀ l, g.validate t p.file = .ok l → l.Named ∧ t.Unlinked l)
    (hw : ∀ e ∈ preview g d t patches, ∀ l : Location, l.Named → e.file = l.path →
      t.Writable l) :
    (run g d .write t patches).1 = (run g d .check t patches).1 ∧
      (run g d .check t patches).2 = t ∧
      Made (preview g d t patches) t (run g d .write t patches).2 := by
  rw [preview_eq] at hw ⊢
  obtain ⟨hresults, hmade⟩ := runGroups_check_of_write ht
    (nodup_groups (accepted t g patches)) (fun x hx => by
      obtain ⟨p, hp⟩ := mem_groups hx
      obtain ⟨hmem, hvalidate⟩ := mem_accepted.1 hp
      exact hgs p hmem x.1 hvalidate) hw
  refine ⟨?_, snd_run_check g d t patches, hmade⟩
  simp only [run, hresults]

/-- The edits of a preview are for places that patches are accepted for, and know the texts there. -/
theorem place_of_mem_preview (he : e ∈ preview g d t patches) :
    e.isNoop = false ∧ ∃ p ∈ patches, ∃ l, g.validate t p.file = .ok l ∧ e.file = l.path ∧
      ∃ found, t.readText e.file = .ok found ∧ e.before = some found := by
  rw [preview_eq] at he
  obtain ⟨hnoop, x, hx, hfile, hread⟩ := read_of_mem_groupEdits he
  obtain ⟨p, hp⟩ := mem_groups hx
  obtain ⟨hmem, hvalidate⟩ := mem_accepted.1 hp
  exact ⟨hnoop, p, hmem, x.1, hvalidate, hfile, hread⟩

theorem writable_of_mem_preview {o : EditOutcome} (ht : t.IsTree)
    (hgs : ∀ p ∈ patches, ∀ l, g.validate t p.file = .ok l → l.Named ∧ t.Unlinked l)
    (he : e ∈ preview g d t patches) (happly : (e.apply t).1 = .ok o) (hl : l.Named)
    (hfile : e.file = l.path) : t.Writable l := by
  obtain ⟨hnoop, p, hp, m, hm, hfile', found, hread, hbefore⟩ := place_of_mem_preview he
  obtain ⟨hnamed, hunlinked⟩ := hgs p hp m hm
  obtain rfl := Location.path_injective hl hnamed (hfile.symm.trans hfile')
  exact FileEdit.writable_of_apply ht hnamed hunlinked hfile
    (FileEdit.currentText_eq_ok_iff.2 (.inl ⟨found, hread, hbefore⟩)) hnoop happly

end Patching

end AndroidFonts
