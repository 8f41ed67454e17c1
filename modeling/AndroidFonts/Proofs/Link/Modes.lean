/-
# `AndroidFonts.Proofs.Link.Modes` — a run of patches against its dry run

A dry run of patches says what each step would come to; a run also writes, and the system may refuse
to.  `run_write_of_check` says that this is the only difference: a run comes to what the dry run says,
but that steps whose file could not be written have failed, and the tree it leaves is the tree it found
with the edits of the preview made that can be made.

The argument is by groups.  A group that is written replaces the file that was read for it, so all
that changes is what that file holds (`FileTree.Alike`), and the groups after it read other files
(`runGroups_write_of_check`).  This takes two things of the accepted places: none of them is a
symbolic link, since writing replaces a link and reading follows it, and no two of them lead to one
file.  The second can fail where a place was accepted beyond the limits of the system, with a link
taken for a name that is yet to be made (`run_differs_from_check`).
-/
import AndroidFonts.Proofs.Link.Rehearsal
import AndroidFonts.Proofs.Project.Sources
import AndroidFonts.Proofs.Tree.Contents

namespace AndroidFonts

open FileTree

namespace Patching

variable {t t' u : FileTree} {g : Guard} {d : Dialect} {l : Location} {e : FileEdit}
  {es es' : List FileEdit} {patches : List SourcePatch} {gs : List (Location × List SourcePatch)}
  {file : Path} {r : StepResult}

/-! ## Steps whose file cannot be written -/

/-- Why an edit cannot be made. -/
def hindrance? (t : FileTree) (e : FileEdit) : Option EditError :=
  match (e.apply t).1 with
  | .error cause => some cause
  | .ok _ => none

/-- Why the edit of a file cannot be made, if there is one among some edits and it cannot. -/
def refusal? (t : FileTree) (es : List FileEdit) (file : Path) : Option EditError :=
  es.findSome? fun e => if e.file = file then hindrance? t e else none

/-- What a foreseen result comes to when the edits are tried. -/
def tried (t : FileTree) (es : List FileEdit) (r : StepResult) : StepResult :=
  match r.result with
  | .error _ => r
  | .ok o =>
    match refusal? t es o.file with
    | none => r
    | some cause => ⟨r.id, .ok (unwritten cause.message o)⟩

theorem tried_of_error {cause : StepError} (h : r.result = .error cause) : tried t es r = r := by
  rw [tried, h]

theorem tried_of_none {o : StepOutcome} (h : r.result = .ok o)
    (hnone : refusal? t es o.file = none) : tried t es r = r := by
  rw [tried, h]
  simp only [hnone]

theorem tried_of_some {o : StepOutcome} {cause : EditError} (h : r.result = .ok o)
    (hsome : refusal? t es o.file = some cause) :
    tried t es r = ⟨r.id, .ok (unwritten cause.message o)⟩ := by
  rw [tried, h]
  simp only [hsome]

/-- Only the edits of the file of a step count for it. -/
theorem tried_congr (h : ∀ o, r.result = .ok o → refusal? t' es' o.file = refusal? t es o.file) :
    tried t' es' r = tried t es r := by
  cases hr : r.result with
  | error cause => rw [tried_of_error hr, tried_of_error hr]
  | ok o =>
    cases hrefusal : refusal? t es o.file with
    | none => rw [tried_of_none hr hrefusal, tried_of_none hr ((h o hr).trans hrefusal)]
    | some cause => rw [tried_of_some hr hrefusal, tried_of_some hr ((h o hr).trans hrefusal)]

theorem map_tried_of_none {rs : List StepResult}
    (h : ∀ r ∈ rs, ∀ o, r.result = .ok o → refusal? t es o.file = none) :
    rs.map (tried t es) = rs := by
  refine (List.map_congr_left fun r hr => ?_).trans (List.map_id rs)
  cases hresult : r.result with
  | error cause => exact tried_of_error hresult
  | ok o => exact tried_of_none hresult (h r hr o hresult)

theorem refusal?_of_forall (h : ∀ e ∈ es, e.file ≠ file) : refusal? t es file = none :=
  List.findSome?_eq_none_iff.2 fun e he => if_neg (h e he)

theorem refusal?_append (t : FileTree) (es es' : List FileEdit) (file : Path) :
    refusal? t (es ++ es') file = (refusal? t es file).or (refusal? t es' file) :=
  List.findSome?_append

theorem refusal?_singleton (t : FileTree) (e : FileEdit) :
    refusal? t [e] e.file = hindrance? t e := by
  rw [refusal?, List.findSome?_cons, if_pos rfl]
  cases hindrance? t e with
  | none => rfl
  | some cause => rfl

/-- Edits of other files do not count for a step. -/
theorem tried_append_of_right (h : ∀ o, r.result = .ok o → ∀ e ∈ es', e.file ≠ o.file) :
    tried t (es ++ es') r = tried t es r := by
  refine tried_congr fun o ho => ?_
  rw [refusal?_append, refusal?_of_forall (h o ho), Option.or_none]

theorem tried_append_of_left (h : ∀ o, r.result = .ok o → ∀ e ∈ es, e.file ≠ o.file) :
    tried t (es ++ es') r = tried t es' r := by
  refine tried_congr fun o ho => ?_
  rw [refusal?_append, refusal?_of_forall (h o ho), Option.none_or]

theorem hindrance?_of_error {cause : EditError} (h : e.apply t = (.error cause, u)) :
    hindrance? t e = some cause := by
  rw [hindrance?, h]

theorem hindrance?_of_ok {o : EditOutcome} (h : e.apply t = (.ok o, u)) :
    hindrance? t e = none := by
  rw [hindrance?, h]

theorem refusal?_congr (h : ∀ e ∈ es, hindrance? u e = hindrance? t e) (file : Path) :
    refusal? u es file = refusal? t es file := by
  induction es with
  | nil => rfl
  | cons e es ih =>
    rw [refusal?, refusal?, List.findSome?_cons, List.findSome?_cons, h e List.mem_cons_self,
      ← refusal?, ← refusal?, ih fun e he => h e (List.mem_cons_of_mem _ he)]

/-! ## What edits leave -/

/-- Of some edits those that can be made have been made, and nothing else has changed. -/
structure Carried (es : List FileEdit) (t t' : FileTree) : Prop where
  alike : Alike t t'
  named : ∀ e ∈ es, hindrance? t e = none → t'.readText e.file = .ok e.after
  other : ∀ m, (∀ e ∈ es, hindrance? t e = none → t.locate e.file ≠ .ok m) →
    t'.get? m = t.get? m

namespace Carried

theorem refl (t : FileTree) : Carried [] t t := ⟨.refl t, nofun, fun _ _ => rfl⟩

/-- An edit that cannot be made has not been made. -/
theorem of_hindrance {cause : EditError} (h : hindrance? t e = some cause) :
    Carried [e] t t := by
  refine ⟨.refl t, fun e' he' hnone => ?_, fun _ _ => rfl⟩
  rw [List.mem_singleton.1 he', h] at hnone
  nomatch hnone

/-- An edit that can be made puts its text into the file that its path leads to. -/
theorem of_put {m : Location} {found : String} (h : hindrance? t e = none)
    (hlocate : t.locate e.file = .ok m) (hfile : t.get? m = some (.file (.text found))) :
    Carried [e] t (t.put m (.file (.text e.after))) := by
  have halike : Alike t (t.put m (.file (.text e.after))) := .put hfile _
  have hne : m ≠ [] := by
    rintro rfl
    rw [t.get?_nil] at hfile
    nomatch hfile
  refine ⟨halike, fun e' he' _ => ?_, fun r hr => ?_⟩
  · obtain rfl := List.mem_singleton.1 he'
    refine readText_eq_ok_iff.2 ⟨m, ?_, ?_⟩
    · rw [halike.locate_eq]
      exact hlocate
    · rw [get?_put t hne, if_pos rfl]
  · rw [get?_put t hne, if_neg]
    rintro rfl
    exact hr e (List.mem_singleton_self e) h hlocate

/-- Edits of other files can be made afterwards. -/
theorem trans (h : Carried es t u) (h' : Carried es' u t')
    (hsame : ∀ e ∈ es', hindrance? u e = hindrance? t e)
    (hapart : ∀ e ∈ es, ∀ e' ∈ es', ∀ m, t.locate e.file = .ok m → t.locate e'.file ≠ .ok m) :
    Carried (es ++ es') t t' where
  alike := h.alike.trans h'.alike
  named := by
    intro e he hnone
    rcases List.mem_append.1 he with he | he
    · rw [h'.alike.readText_eq fun m hm => h'.other m fun e' he' _ => ?_]
      · exact h.named e he hnone
      · rw [h.alike.locate_eq] at hm ⊢
        exact hapart e he e' he' m hm
    · exact h'.named e he ((hsame e he).trans hnone)
  other := by
    intro m hm
    rw [h'.other m fun e he hnone => ?_]
    · exact h.other m fun e he => hm e (List.mem_append_left _ he)
    · rw [h.alike.locate_eq]
      exact hm e (List.mem_append_right _ he) ((hsame e he).symm.trans hnone)

end Carried

/-! ## One group -/

theorem file_of_mem_planOutcomes {found id : String} {o : StepOutcome}
    (h : (id, o) ∈ planOutcomes file found patches d) : o.file = file := by
  obtain ⟨x, -, rfl⟩ := List.mem_map.1 (List.of_mem_zip h).2
  exact file_outcomeOf file x

/-- The steps of a group are steps on its file. -/
theorem file_of_mem_runFile {o : StepOutcome} (hr : r ∈ (runFile d .check t l patches).1)
    (ho : r.result = .ok o) : o.file = l.path := by
  cases hread : t.readText l.path with
  | error cause =>
    rw [runFile_of_error hread] at hr
    obtain ⟨p, -, rfl⟩ := List.mem_map.1 hr
    nomatch ho
  | ok found =>
    rw [runFile_of_quiet hread (.inl rfl)] at hr
    obtain ⟨⟨id, o'⟩, hmem, rfl⟩ := List.mem_map.1 hr
    obtain rfl := Except.ok.inj ho
    exact file_of_mem_planOutcomes hmem

theorem file_of_mem_runGroups {o : StepOutcome} (hr : r ∈ (runGroups d .check t gs).1)
    (ho : r.result = .ok o) : ∃ x ∈ gs, o.file = Location.path x.1 := by
  induction gs generalizing t with
  | nil => nomatch hr
  | cons x gs ih =>
    simp only [runGroups, snd_runFile_check] at hr
    rcases List.mem_append.1 hr with hr | hr
    · exact ⟨x, List.mem_cons_self, file_of_mem_runFile hr ho⟩
    · obtain ⟨y, hy, hfile⟩ := ih hr
      exact ⟨y, List.mem_cons_of_mem _ hy, hfile⟩

section
variable {found : String}

/-- When the edit of a group can be made, its steps come to what was foreseen. -/
theorem map_tried_resultsOf (h : hindrance? t (planEdit l.path found patches d) = none) :
    (resultsOf d l found patches).map (tried t [planEdit l.path found patches d]) =
      resultsOf d l found patches := by
  refine map_tried_of_none fun r hr o ho => ?_
  obtain ⟨x, hx, rfl⟩ := List.mem_map.1 hr
  obtain rfl := Except.ok.inj ho
  have hof : x.2.file = (planEdit l.path found patches d).file := file_of_mem_planOutcomes hx
  rw [hof, refusal?_singleton, h]

/-- When it cannot be made, none of them has written its file. -/
theorem map_tried_resultsOf_of_some {cause : EditError}
    (h : hindrance? t (planEdit l.path found patches d) = some cause) :
    (resultsOf d l found patches).map (tried t [planEdit l.path found patches d]) =
      (planOutcomes l.path found patches d).map fun (id, o) =>
        ⟨id, .ok (unwritten cause.message o)⟩ := by
  rw [resultsOf, List.map_map]
  refine List.map_congr_left fun x hx => tried_of_some (r := ⟨x.1, .ok x.2⟩) rfl ?_
  have hof : x.2.file = (planEdit l.path found patches d).file := file_of_mem_planOutcomes hx
  rw [hof, refusal?_singleton, h]

end

theorem groupEdits_singleton (d : Dialect) (t : FileTree) (x : Location × List SourcePatch) :
    groupEdits d t [x] = (groupEdit d t x).toList := by
  rw [groupEdits, List.filterMap_cons, List.filterMap_nil]
  cases groupEdit d t x with
  | none => rfl
  | some e => rfl

/-- A group comes to what its dry run says when its edit is tried, and leaves what that leaves. -/
theorem runFile_write_of_check (d : Dialect) (patches : List SourcePatch) (hnamed : l.Named)
    (hlink : t.namesLink l.path = false) :
    (runFile d .write t l patches).1 =
      (runFile d .check t l patches).1.map (tried t (groupEdits d t [(l, patches)])) ∧
    Carried (groupEdits d t [(l, patches)]) t (runFile d .write t l patches).2 := by
  rw [groupEdits_singleton]
  cases hread : t.readText l.path with
  | error cause =>
    rw [runFile_of_error hread, runFile_of_error hread,
      groupEdit_of_error (x := (l, patches)) hread]
    exact ⟨(map_tried_of_none fun _ _ _ _ => rfl).symm, .refl t⟩
  | ok found =>
    rw [groupEdit_of_ok (x := (l, patches)) hread, runFile_of_quiet hread (.inl rfl)]
    cases hnoop : (planEdit l.path found patches d).isNoop with
    | true =>
      rw [runFile_of_quiet hread (.inr hnoop)]
      exact ⟨(map_tried_of_none fun _ _ _ _ => rfl).symm, .refl t⟩
    | false =>
      obtain ⟨m, hlocate, hfile, happly⟩ := FileEdit.apply_of_read
        (e := planEdit l.path found patches d) hnamed rfl rfl hnoop hread hlink
      simp only [Bool.false_eq_true, if_false, Option.toList_some]
      by_cases hroom : ((Location.path l.dropLast).join temporaryName).isTooLong = true
      · rw [if_pos hroom] at happly
        have hhindrance := hindrance?_of_error happly
        rw [runFile_of_refused hread hnoop happly]
        exact ⟨(map_tried_resultsOf_of_some hhindrance).symm, .of_hindrance hhindrance⟩
      · rw [if_neg hroom] at happly
        have hhindrance := hindrance?_of_ok happly
        rw [runFile_of_write hread hnoop happly]
        exact ⟨(map_tried_resultsOf hhindrance).symm, .of_put hhindrance hlocate hfile⟩

/-! ## Runs -/

theorem hindrance?_of_read {found : String} (hnamed : l.Named) (he : e.file = l.path)
    (hbefore : e.before = some found) (hnoop : e.isNoop = false)
    (hread : t.readText l.path = .ok found) (hlink : t.namesLink l.path = false) :
    hindrance? t e = if ((Location.path l.dropLast).join temporaryName).isTooLong then
      some (.io l.path (.temporaryFile .nameTooLong)) else none := by
  obtain ⟨m, -, -, happly⟩ := FileEdit.apply_of_read hnamed he hbefore hnoop hread hlink
  by_cases hroom : ((Location.path l.dropLast).join temporaryName).isTooLong = true
  · rw [if_pos hroom] at happly ⊢
    exact hindrance?_of_error happly
  · rw [if_neg hroom] at happly ⊢
    exact hindrance?_of_ok happly

/-- Places that are no links and lead to different files. -/
structure Separate (t : FileTree) (ls : List Location) : Prop where
  named : ∀ l ∈ ls, l.Named
  noLink : ∀ l ∈ ls, t.namesLink l.path = false
  file : ∀ l ∈ ls, ∀ m ∈ ls, ∀ r, t.locate l.path = .ok r → t.locate m.path = .ok r → l = m

theorem Separate.alike {ls : List Location} (h : Separate t ls) (hu : Alike t u) :
    Separate u ls where
  named := h.named
  noLink := fun l hl => (hu.namesLink_eq _).trans (h.noLink l hl)
  file := by
    intro l hl m hm r hr hr'
    rw [hu.locate_eq] at hr hr'
    exact h.file l hl m hm r hr hr'

theorem Separate.tail {ls : List Location} (h : Separate t (l :: ls)) : Separate t ls where
  named := fun m hm => h.named m (List.mem_cons_of_mem _ hm)
  noLink := fun m hm => h.noLink m (List.mem_cons_of_mem _ hm)
  file := fun m hm k hk => h.file m (List.mem_cons_of_mem _ hm) k (List.mem_cons_of_mem _ hk)

/-- What stands against the edits of groups does not depend on what other files hold. -/
theorem Separate.hindrance?_eq (hgs : Separate t (gs.map Prod.fst)) (hu : Alike t u)
    (hread : ∀ x ∈ gs, u.readText (Location.path x.1) = t.readText (Location.path x.1))
    (he : e ∈ groupEdits d t gs) : hindrance? u e = hindrance? t e := by
  obtain ⟨hnoop, x, hx, hfile, found, hfound, hbefore⟩ := read_of_mem_groupEdits he
  rw [hfile] at hfound
  have hnamed := hgs.named _ (List.mem_map_of_mem hx)
  have hlink := hgs.noLink _ (List.mem_map_of_mem hx)
  rw [hindrance?_of_read hnamed hfile hbefore hnoop hfound hlink,
    hindrance?_of_read hnamed hfile hbefore hnoop ((hread x hx).trans hfound)
      ((hu.namesLink_eq _).trans hlink)]

/-- Groups with different files come to what their dry run says when their edits are tried. -/
theorem runGroups_write_of_check (d : Dialect) (hnodup : (gs.map Prod.fst).Nodup)
    (hgs : Separate t (gs.map Prod.fst)) :
    (runGroups d .write t gs).1 =
      (runGroups d .check t gs).1.map (tried t (groupEdits d t gs)) ∧
    Carried (groupEdits d t gs) t (runGroups d .write t gs).2 := by
  induction gs generalizing t with
  | nil => exact ⟨rfl, .refl t⟩
  | cons x gs ih =>
    obtain ⟨l, patches⟩ := x
    rw [List.map_cons, List.nodup_cons] at hnodup
    have hl : l ∈ ((l, patches) :: gs).map Prod.fst := List.mem_cons_self
    have hmem : ∀ x ∈ gs, x.1 ∈ ((l, patches) :: gs).map Prod.fst :=
      fun x hx => List.mem_cons_of_mem _ (List.mem_map_of_mem hx)
    have hne : ∀ x ∈ gs, Location.path x.1 ≠ l.path := fun x hx heq =>
      hnodup.1 (List.mem_map.2 ⟨x, hx, Location.path_injective (hgs.named _ (hmem x hx))
        (hgs.named l hl) heq⟩)
    have hhead : ∀ e ∈ groupEdits d t [(l, patches)], e.file = l.path := by
      intro e he
      obtain ⟨-, x, hx, hfile, -⟩ := read_of_mem_groupEdits he
      obtain rfl := List.mem_singleton.1 hx
      exact hfile
    have hapart : ∀ e ∈ groupEdits d t [(l, patches)], ∀ x ∈ gs, ∀ m,
        t.locate e.file = .ok m → t.locate (Location.path x.1) ≠ .ok m := by
      intro e he x hx m hm hm'
      rw [hhead e he] at hm
      exact hne x hx (congrArg Location.path (hgs.file x.1 (hmem x hx) l hl m hm' hm))
    obtain ⟨hresults, hcarried⟩ :=
      runFile_write_of_check d patches (hgs.named l hl) (hgs.noLink l hl)
    -- the other groups read what they would have read before
    have hread : ∀ x ∈ gs, (runFile d .write t l patches).2.readText (Location.path x.1) =
        t.readText (Location.path x.1) := fun x hx =>
      hcarried.alike.readText_eq fun m hm => hcarried.other m fun e he _ hm' =>
        hapart e he x hx m hm' hm
    have hedits := groupEdits_congr (d := d) hread
    have hsame : ∀ e ∈ groupEdits d t gs,
        hindrance? (runFile d .write t l patches).2 e = hindrance? t e :=
      fun e he => hgs.tail.hindrance?_eq hcarried.alike hread he
    obtain ⟨hrest, hcarried'⟩ := ih hnodup.2 (hgs.tail.alike hcarried.alike)
    rw [hedits, runGroups_check_congr hread] at hrest
    rw [hedits] at hcarried'
    rw [groupEdits_cons]
    refine ⟨?_, hcarried.trans hcarried' hsame fun e he e' he' => ?_⟩
    · -- each part of the results is tried with the edits of its own groups
      have hown : ∀ r ∈ (runFile d .check t l patches).1,
          tried t (groupEdits d t [(l, patches)]) r =
            tried t (groupEdits d t [(l, patches)] ++ groupEdits d t gs) r := by
        refine fun r hr => (tried_append_of_right fun o ho e he heq => ?_).symm
        obtain ⟨-, x, hx, hfile, -⟩ := read_of_mem_groupEdits he
        exact hne x hx (hfile.symm.trans (heq.trans (file_of_mem_runFile hr ho)))
      have hothers : ∀ r ∈ (runGroups d .check t gs).1,
          tried (runFile d .write t l patches).2 (groupEdits d t gs) r =
            tried t (groupEdits d t [(l, patches)] ++ groupEdits d t gs) r := by
        refine fun r hr => (tried_congr fun o ho => refusal?_congr hsame o.file).trans
          (tried_append_of_left fun o ho e he heq => ?_).symm
        obtain ⟨x, hx, hfile⟩ := file_of_mem_runGroups hr ho
        exact hne x hx (hfile.symm.trans (heq.symm.trans (hhead e he)))
      simp only [runGroups, snd_runFile_check, hresults, hrest, List.map_append]
      rw [List.map_congr_left hown, List.map_congr_left hothers]
    · obtain ⟨-, x, hx, hfile, -⟩ := read_of_mem_groupEdits he'
      rw [hfile]
      exact hapart e he x hx

theorem map_tried_refused (t : FileTree) (es : List FileEdit) (g : Guard)
    (patches : List SourcePatch) :
    (refused t g patches).map (tried t es) = refused t g patches := by
  refine map_tried_of_none fun r hr o ho => ?_
  obtain ⟨p, -, hp⟩ := List.mem_filterMap.1 hr
  cases hv : g.validate t p.file with
  | ok l =>
    rw [hv] at hp
    nomatch hp
  | error cause =>
    rw [hv] at hp
    obtain rfl := Option.some.inj hp
    nomatch ho

/-- A run of patches comes to what its dry run says, but for the steps whose file could not be
written, and leaves the tree with the edits of the preview made that can be made; what stands against
an edit is the length of the name of a temporary file.  A dry run leaves the tree as it was. -/
theorem run_write_of_check (g : Guard) (d : Dialect)
    (hlink : ∀ x ∈ accepted t g patches, t.namesLink (Location.path x.1) = false)
    (hfile : ∀ x ∈ accepted t g patches, ∀ y ∈ accepted t g patches, x.1 ≠ y.1 →
      ∀ r, t.locate (Location.path x.1) = .ok r → t.locate (Location.path y.1) ≠ .ok r) :
    (run g d .check t patches).2 = t ∧
    (run g d .write t patches).1 =
      (run g d .check t patches).1.map (tried t (preview g d t patches)) ∧
    Carried (preview g d t patches) t (run g d .write t patches).2 ∧
    ∀ e ∈ preview g d t patches, ∀ cause, hindrance? t e = some cause →
      cause = .io e.file (.temporaryFile .nameTooLong) := by
  have hplace : ∀ l ∈ (groups (accepted t g patches)).map Prod.fst,
      ∃ x ∈ accepted t g patches, x.1 = l := by
    intro l hl
    obtain ⟨x, hx, rfl⟩ := List.mem_map.1 hl
    obtain ⟨p, hp⟩ := mem_groups hx
    exact ⟨(x.1, p), hp, rfl⟩
  have hseparate : Separate t ((groups (accepted t g patches)).map Prod.fst) := {
    named := by
      intro l hl
      obtain ⟨x, hx, rfl⟩ := hplace l hl
      exact (Guard.named_of_validate (mem_accepted.1 hx).2).1
    noLink := by
      intro l hl
      obtain ⟨x, hx, rfl⟩ := hplace l hl
      exact hlink x hx
    file := by
      intro l hl m hm r hr hr'
      obtain ⟨x, hx, rfl⟩ := hplace l hl
      obtain ⟨y, hy, rfl⟩ := hplace m hm
      by_contra hne
      exact hfile x hx y hy hne r hr hr' }
  obtain ⟨hresults, hcarried⟩ := runGroups_write_of_check d (nodup_groups _) hseparate
  refine ⟨snd_run_check g d t patches, ?_, hcarried, fun e he cause hcause => ?_⟩
  · simp only [run, List.map_append, map_tried_refused, hresults, preview_eq]
  · obtain ⟨hnoop, p, hp, l, hl, hpath, found, hread, hbefore⟩ := place_of_mem_preview he
    rw [hpath] at hread
    have hnolink : t.namesLink l.path = false := hlink (l, p) (mem_accepted.2 ⟨hp, hl⟩)
    rw [hindrance?_of_read (Guard.named_of_validate hl).1 hpath hbefore hnoop hread
      hnolink] at hcause
    split at hcause
    · rw [hpath]
      exact (Option.some.inj hcause).symm
    · cases hcause

/-- A project in which a directory of sources is reached by a link, too. -/
def bridgedSources : FileTree where
  nodes := [(["android"], .directory), (["android", "here"], .link ⟨"."⟩),
    (["android", "far"], .link ⟨"here/here/here/here/here/here/here/here/here"⟩),
    (["android", "out"], .link ⟨"inside"⟩), (["android", "inside"], .directory),
    (["android", "inside", "Main.java"], .file (.text "old\nkept"))]
  current := []

/-- A patch that removes a line. -/
def removal (file line : String) : SourcePatch := ⟨file, ⟨file⟩, .removeLines line⟩

/-- Two patches reach one file, by the link and by its own path; another may not be written, and one
is for a file that is not there. -/
def bridgedPatches : List SourcePatch :=
  [removal "out/Main.java" "old", removal "../Main.java" "old", removal "lost/Main.java" "old",
    removal "here/inside/./Main.java" "old"]

theorem run_write_of_check_bridged :
    (run ⟨["android"]⟩ .java .write bridgedSources bridgedPatches).1 =
      (run ⟨["android"]⟩ .java .check bridgedSources bridgedPatches).1 ∧
    (run ⟨["android"]⟩ .java .write bridgedSources bridgedPatches).2.readText
      ⟨"/android/inside/Main.java"⟩ = .ok "kept" := by
  have hlink : ∀ x ∈ accepted bridgedSources ⟨["android"]⟩ bridgedPatches,
      bridgedSources.namesLink (Location.path x.1) = false := by decide +kernel
  have hfile : ∀ x ∈ accepted bridgedSources ⟨["android"]⟩ bridgedPatches,
      ∀ y ∈ accepted bridgedSources ⟨["android"]⟩ bridgedPatches, x.1 ≠ y.1 →
        (bridgedSources.locate (Location.path x.1)).toOption ≠
          (bridgedSources.locate (Location.path y.1)).toOption := by decide +kernel
  have hpreview : preview ⟨["android"]⟩ .java bridgedSources bridgedPatches =
      [⟨⟨"/android/inside/Main.java"⟩, some "old\nkept", "kept"⟩] := by decide +kernel
  have hmade : hindrance? bridgedSources
      ⟨⟨"/android/inside/Main.java"⟩, some "old\nkept", "kept"⟩ = none := by decide +kernel
  obtain ⟨-, hresults, hcarried, -⟩ := run_write_of_check ⟨["android"]⟩ .java hlink
    fun x hx y hy hne r hr hr' => hfile x hx y hy hne (congrArg Except.toOption (hr.trans hr'.symm))
  rw [hpreview] at hresults hcarried
  rw [map_tried_of_none fun r _ o _ => by rw [refusal?, List.findSome?_cons, hmade, ite_self]; rfl]
    at hresults
  have hnamed := hcarried.named _ (List.mem_singleton_self _) hmade
  exact ⟨hresults, hnamed⟩

/-! ## Where a run and its dry run differ -/

/-- A long name. -/
def longName : String := String.ofList (List.replicate 226 'd')

/-- Directories in each other, each under the long name. -/
def tower : Nat → FileTree
  | 0 => ⟨[], []⟩
  | n + 1 => (tower n).put (List.replicate n longName ++ [longName]) .directory

/-- The characters of the long name. -/
def longChars : List Char := List.replicate 226 'd'

theorem toList_longName : longName.toList = longChars := String.toList_ofList

theorem ne_longName {s : String} (h : s.toList.length < 226) : s ≠ longName := by
  rintro rfl
  rw [toList_longName, longChars, List.length_replicate] at h
  exact Nat.lt_irrefl _ h

theorem isName_longName : IsName longName ∧ Text.byteLength longName.toList ≤ maxName := by
  refine ⟨⟨⟨(ne_longName (by decide)).symm, ?_⟩, (ne_longName (by decide)).symm,
    (ne_longName (by decide)).symm⟩, ?_⟩
  · rw [toList_longName]
    exact fun h => absurd (List.eq_of_mem_replicate h) (by decide)
  · rw [toList_longName]
    decide +kernel

theorem tower_spec (n : Nat) : (tower n).IsTree ∧
    (tower n).get? (List.replicate n longName) = some .directory ∧
      (∀ l target, (tower n).get? l ≠ some (.link target)) ∧
        ∀ l, (tower n).get? l ≠ none → ∀ s ∈ l, s = longName := by
  induction n with
  | zero =>
    have hnil : ∀ l, l ≠ [] → (tower 0).get? l = none := fun l hl => by rw [get?, if_neg hl]; rfl
    refine ⟨.of_nodes fun _ hx => absurd hx List.not_mem_nil, rfl, fun l target h => ?_,
      fun l h s hs => ?_⟩
    · by_cases hl : l = []
      · rw [hl, get?_nil] at h
        cases h
      · rw [hnil l hl] at h
        cases h
    · by_cases hl : l = []
      · exact absurd (hl ▸ hs) List.not_mem_nil
      · exact absurd (hnil l hl) h
  | succ n ih =>
    obtain ⟨htree, hdir, hlink, hnames⟩ := ih
    have hput := get?_put (tower n) (l := List.replicate n longName ++ [longName]) (by simp)
      .directory
    refine ⟨htree.put hdir isName_longName.1 isName_longName.2 fun _ => rfl, ?_,
      fun l target => ?_, fun l hl => ?_⟩
    · rw [List.replicate_succ', tower, hput, if_pos rfl]
    · rw [tower, hput]
      split
      · intro heq
        cases heq
      · exact hlink l target
    · rw [tower, hput] at hl
      split at hl
      · rename_i heq
        rw [heq, ← List.replicate_succ']
        exact fun s hs => List.eq_of_mem_replicate hs
      · exact hnames l hl

/-- A file that is so deep that no name of a temporary file fits behind its directory. -/
def deepFile : Location := List.replicate 18 longName ++ ["a"]

def deepProject : FileTree := (tower 18).put deepFile (.file (.text "old\nkept"))

theorem isName_a : IsName "a" ∧ Text.byteLength "a".toList ≤ maxName := by decide

theorem named_deepFile : deepFile.Named :=
  Location.Named.concat (fun _ h => List.eq_of_mem_replicate h ▸ isName_longName.1) isName_a.1

theorem get?_deepProject (l : Location) : deepProject.get? l =
    if l = deepFile then some (.file (.text "old\nkept")) else (tower 18).get? l :=
  get?_put _ (by simp [deepFile]) _ _

theorem isTree_deepProject : deepProject.IsTree := by
  obtain ⟨htree, hdir, -, hnames⟩ := tower_spec 18
  refine htree.put hdir isName_a.1 isName_a.2 fun h => ?_
  exact absurd (hnames deepFile (by rw [deepFile, h]; nofun) "a" (by simp [deepFile]))
    (ne_longName (by decide))

theorem unlinked_deepFile : deepProject.Unlinked deepFile := by
  intro l _ target
  rw [get?_deepProject]
  split
  · nofun
  · exact (tower_spec 18).2.2.1 l target

theorem map_toList_deep : (List.replicate 18 longName).map String.toList =
    List.replicate 18 longChars := by
  rw [List.map_replicate, toList_longName]

theorem allowed_deepFile : Allowed deepFile.path := by
  have htext : deepFile.path.text.toList =
      '/' :: ['/'].intercalate (List.replicate 18 longChars ++ [['a']]) := by
    rw [Location.toList_path, deepFile, List.map_append, map_toList_deep]
    rfl
  refine ⟨?_, ?_, Location.path_text_ne _⟩
  · rw [htext]
    decide +kernel
  · rw [Path.isTooLong, htext]
    decide +kernel

theorem no_room_deepFile :
    ((Location.path deepFile.dropLast).join temporaryName).isTooLong = true := by
  have htext : (Location.path deepFile.dropLast).text.toList =
      '/' :: ['/'].intercalate (List.replicate 18 longChars) := by
    rw [Location.toList_path, deepFile, List.dropLast_concat, map_toList_deep]
  have hjoin : (Location.path deepFile.dropLast).join temporaryName =
      ⟨(Location.path deepFile.dropLast).text ++ "/" ++ temporaryName⟩ := by
    rw [Path.join, if_neg, if_neg]
    · rw [htext]
      decide +kernel
    · rw [htext]
      decide +kernel
  rw [hjoin, Path.isTooLong, String.toList_append, String.toList_append, htext]
  decide +kernel

theorem readText_deepFile : deepProject.readText deepFile.path = .ok "old\nkept" :=
  (unlinked_deepFile.readText_path_eq_ok_iff isTree_deepProject named_deepFile).2
    ⟨allowed_deepFile, by rw [get?_deepProject, if_pos rfl]⟩

theorem namesLink_deepFile : deepProject.namesLink deepFile.path = false := by
  have hdir : deepProject.get? (List.replicate 18 longName) = some .directory := by
    rw [get?_deepProject, if_neg (by simp [deepFile]), (tower_spec 18).2.1]
  have hentry : deepProject.entryOf deepFile.path = .ok (List.replicate 18 longName, some "a") :=
    entryOf_path_of_directory isTree_deepProject named_deepFile allowed_deepFile isName_a.2 hdir
  rw [namesLink, hentry]
  simp only [show List.replicate 18 longName ++ ["a"] = deepFile from rfl, get?_deepProject, if_true]

theorem validate_deepFile :
    (Guard.mk []).validate deepProject deepFile.path = .ok deepFile := by
  refine (Guard.validate_path_iff named_deepFile (Guard.check_eq_ok_iff.2
    ⟨rfl, List.nil_prefix, fun d hd hle => ?_⟩)).2 unlinked_deepFile.settled
  have hshort : ∀ d ∈ Guard.generatedDirectories, ∃ s ∈ d, s.toList.length < 226 ∧ s ≠ "a" := by
    simp [Guard.generatedDirectories]
  obtain ⟨s, hs, hlength, hne⟩ := hshort d hd
  rcases List.mem_append.1 (hle.subset (List.mem_append_right _ hs)) with hmem | hmem
  · exact ne_longName hlength (List.eq_of_mem_replicate hmem)
  · exact hne (List.mem_singleton.1 hmem)

/-- Forty links lead to the project, so `out` is one too many and is taken for a name. -/
def farPatches : List SourcePatch :=
  [⟨"near", ⟨"inside/Main.java"⟩, .removeLines "old"⟩,
    ⟨"far", ⟨"far/far/far/far/out/Main.java"⟩, .removeLines "old"⟩]

def deepPatch : SourcePatch := ⟨"deep", deepFile.path, .removeLines "old"⟩

theorem planOutcomes_removal (file f : Path) (id : String) :
    planOutcomes file "old\nkept" [⟨id, f, .removeLines "old"⟩] .java = [(id, .applied file)] := by
  have houtcomes : Operation.outcomes .java "old\nkept" [.removeLines "old"] =
      [.ok (.applied "kept")] := by rfl
  rw [planOutcomes, List.map_singleton, List.map_singleton, houtcomes]
  rfl

theorem isNoop_removal (file f : Path) (id : String) :
    (planEdit file "old\nkept" [⟨id, f, .removeLines "old"⟩] .java).isNoop = false := by
  have htext : Operation.finalText .java "old\nkept" [.removeLines "old"] = "kept" := by rfl
  rw [planEdit, List.map_singleton, htext]
  rfl

/-- A file may be too deep to be written, which a dry run does not find out.  And beyond the limits of
the system a link is taken for a name that is yet to be made; then two accepted places can be one
file, and the second patch finds what the first has left. -/
theorem run_differs_from_check :
    ((Guard.mk []).validate deepProject deepPatch.file = .ok deepFile ∧
      deepProject.namesLink deepFile.path = false ∧
      (run ⟨[]⟩ .java .check deepProject [deepPatch]).1 =
        [⟨"deep", .ok (.applied deepFile.path)⟩] ∧
      (run ⟨[]⟩ .java .write deepProject [deepPatch]).1 =
        [⟨"deep", .ok (.failed deepFile.path
          (EditError.io deepFile.path (.temporaryFile .nameTooLong)).message)⟩]) ∧
    ((∀ x ∈ accepted bridgedSources ⟨["android"]⟩ farPatches,
        bridgedSources.namesLink (Location.path x.1) = false) ∧
      (run ⟨["android"]⟩ .java .check bridgedSources farPatches).1 =
        [⟨"near", .ok (.applied ⟨"/android/inside/Main.java"⟩)⟩,
          ⟨"far", .ok (.applied ⟨"/android/out/Main.java"⟩)⟩] ∧
      (run ⟨["android"]⟩ .java .write bridgedSources farPatches).1 =
        [⟨"near", .ok (.applied ⟨"/android/inside/Main.java"⟩)⟩,
          ⟨"far", .ok (.alreadyApplied ⟨"/android/out/Main.java"⟩)⟩]) := by
  have hrun : ∀ mode, run ⟨[]⟩ .java mode deepProject [deepPatch] =
      runFile .java mode deepProject deepFile [deepPatch] := fun mode =>
    run_of_forall (by simp) fun p hp => List.mem_singleton.1 hp ▸ validate_deepFile
  refine ⟨⟨validate_deepFile, namesLink_deepFile, ?_, ?_⟩, by decide +kernel, by decide +kernel,
    by decide +kernel⟩
  · rw [hrun, runFile_of_quiet readText_deepFile (.inl rfl), resultsOf,
      deepPatch, planOutcomes_removal]
    rfl
  · obtain ⟨m, -, -, happly⟩ := FileEdit.apply_of_read named_deepFile
      (e := planEdit deepFile.path "old\nkept" [deepPatch] .java) rfl rfl
      (isNoop_removal _ _ _) readText_deepFile namesLink_deepFile
    rw [if_pos no_room_deepFile] at happly
    have hrefused := runFile_of_refused readText_deepFile (isNoop_removal _ _ _) happly
    rw [hrun]
    exact (congrArg Prod.fst hrefused).trans (by rw [planOutcomes_removal]; rfl)

end Patching

end AndroidFonts
