/-
# `AndroidFonts.Proofs.Link.Accounts` — every step of a run is reported once

A run answers each family and each patch with one result, in an order that depends only on the paths:
the families in their order, then the patches whose path may not be written in theirs, then the other
patches by the place they are accepted for, places as they first occur (`Patching.order`).  It is a
rearrangement of the patches (`Patching.order_perm`), so none is lost and none is answered twice,
whether ids, families or spellings are repeated or not.

Groups grow one patch at a time, so that they are the patches of each place is an induction from the
back of the list (`Patching.groups_eq`).  A group is answered as its file is found when its turn comes
(`Patching.treeAt`), since the groups before it may have written.
-/
import AndroidFonts.Proofs.Link.DryRun
import Mathlib.Data.List.Nodup

namespace AndroidFonts

open FileTree

namespace Patching

variable {t u : FileTree} {g : Guard} {d : Dialect} {mode : RunMode} {l m : Location}
  {p : SourcePatch} {patches : List SourcePatch} {gs : List (Location × List SourcePatch)}
  {resolved : List (Location × SourcePatch)}

/-! ## Groups -/

/-- The place that a patch is accepted for. -/
def place? (t : FileTree) (g : Guard) (p : SourcePatch) : Option Location :=
  (g.validate t p.file).toOption

/-- The places that some patches are accepted for, in the order in which they first occur. -/
def targets (t : FileTree) (g : Guard) (patches : List SourcePatch) : List Location :=
  (patches.filterMap (place? t g)).eraseDups

/-- The patches that are accepted for a place. -/
def patchesAt (t : FileTree) (g : Guard) (patches : List SourcePatch) (l : Location) :
    List SourcePatch :=
  patches.filter fun p => place? t g p = some l

/-- The order in which patches are reported. -/
def order (t : FileTree) (g : Guard) (patches : List SourcePatch) : List SourcePatch :=
  patches.filter (fun p => (place? t g p).isNone) ++
    (targets t g patches).flatMap (patchesAt t g patches)

theorem place?_eq_some_iff : place? t g p = some l ↔ g.validate t p.file = .ok l := by
  rw [place?]
  cases g.validate t p.file with
  | error cause => exact ⟨nofun, nofun⟩
  | ok m => exact ⟨fun h => congrArg _ (Option.some.inj h), fun h => congrArg _ (Except.ok.inj h)⟩

theorem place?_eq_none_iff : place? t g p = none ↔ ∃ cause, g.validate t p.file = .error cause := by
  rw [place?]
  cases g.validate t p.file with
  | error cause => exact ⟨fun _ => ⟨cause, rfl⟩, fun _ => rfl⟩
  | ok m => exact ⟨nofun, nofun⟩

theorem groups_concat (resolved : List (Location × SourcePatch)) (l : Location) (p : SourcePatch) :
    groups (resolved ++ [(l, p)]) = addToGroup l p (groups resolved) := by
  rw [groups, List.foldl_append]
  rfl

/-- Adding a patch to groups that are the values of a function at different places. -/
theorem addToGroup_map {f : Location → List SourcePatch} {ls : List Location} (hnodup : ls.Nodup)
    (hnew : l ∉ ls → f l = []) :
    addToGroup l p (ls.map fun k => (k, f k)) =
      (if l ∈ ls then ls else ls ++ [l]).map
        fun k => (k, if k = l then f k ++ [p] else f k) := by
  induction ls with
  | nil =>
    rw [if_neg List.not_mem_nil, List.nil_append, List.map_nil, List.map_singleton, if_pos rfl,
      hnew List.not_mem_nil]
    rfl
  | cons k ls ih =>
    rw [List.nodup_cons] at hnodup
    rw [List.map_cons, addToGroup]
    by_cases hk : k = l
    · subst hk
      rw [if_pos rfl, if_pos List.mem_cons_self, List.map_cons, if_pos rfl]
      refine congrArg _ (List.map_congr_left fun m hm => ?_)
      rw [if_neg (show m ≠ k from fun heq => hnodup.1 (heq ▸ hm))]
    · have hmem : l ∈ k :: ls ↔ l ∈ ls := by simp [Ne.symm hk]
      rw [if_neg hk, ih hnodup.2 fun hl => hnew (hmem.not.2 hl)]
      by_cases hl : l ∈ ls
      · rw [if_pos hl, if_pos (hmem.2 hl), List.map_cons, if_neg hk]
      · rw [if_neg hl, if_neg (hmem.not.2 hl), List.cons_append, List.map_cons, if_neg hk]

theorem eraseDups_concat (ls : List Location) (l : Location) :
    (ls ++ [l]).eraseDups = if l ∈ ls then ls.eraseDups else ls.eraseDups ++ [l] := by
  rw [List.eraseDups_append, List.removeAll, List.filter_singleton]
  by_cases hl : l ∈ ls
  · simp [hl]
  · simp [hl, List.eraseDups_cons]

/-- The groups are the patches of each place, places in the order in which they first occur. -/
theorem groups_eq (resolved : List (Location × SourcePatch)) :
    groups resolved = (resolved.map Prod.fst).eraseDups.map
      fun l => (l, (resolved.filter (·.1 = l)).map Prod.snd) := by
  induction resolved using List.reverseRecOn with
  | nil => rfl
  | append_singleton resolved x ih =>
    obtain ⟨l, p⟩ := x
    have hnodup := nodup_groups resolved
    rw [ih, List.map_map, show Prod.fst ∘ _ = id from rfl, List.map_id] at hnodup
    rw [groups_concat, ih, addToGroup_map hnodup fun hl => ?_, List.map_append, List.map_singleton,
      eraseDups_concat]
    · simp only [List.mem_eraseDups]
      refine List.map_congr_left fun k _ => ?_
      rw [List.filter_append, List.filter_singleton, List.map_append]
      by_cases hk : k = l
      · simp [hk]
      · simp [hk, Ne.symm hk]
    · rw [List.mem_eraseDups, List.mem_map] at hl
      rw [List.filter_eq_nil_iff.2 fun y hy heq => hl ⟨y, hy, of_decide_eq_true heq⟩]
      rfl

theorem accepted_eq (t : FileTree) (g : Guard) (patches : List SourcePatch) :
    accepted t g patches = patches.filterMap fun p => (place? t g p).map fun l => (l, p) := rfl

theorem map_fst_accepted (t : FileTree) (g : Guard) (patches : List SourcePatch) :
    (accepted t g patches).map Prod.fst = patches.filterMap (place? t g) := by
  rw [accepted_eq, List.map_filterMap]
  refine List.filterMap_congr fun p _ => ?_
  rw [Option.map_map]
  exact Option.map_id'

theorem accepted_at (t : FileTree) (g : Guard) (patches : List SourcePatch) (l : Location) :
    ((accepted t g patches).filter (·.1 = l)).map Prod.snd = patchesAt t g patches l := by
  rw [accepted_eq, patchesAt]
  induction patches with
  | nil => rfl
  | cons p patches ih =>
    rw [List.filterMap_cons, List.filter_cons, ← ih]
    cases place? t g p with
    | none => rfl
    | some m =>
      by_cases hm : m = l
      · simp [hm]
      · simp [hm]

theorem groups_accepted (t : FileTree) (g : Guard) (patches : List SourcePatch) :
    groups (accepted t g patches) =
      (targets t g patches).map fun l => (l, patchesAt t g patches l) := by
  rw [groups_eq, map_fst_accepted, targets]
  exact List.map_congr_left fun l _ => by rw [accepted_at]

theorem nodup_targets (t : FileTree) (g : Guard) (patches : List SourcePatch) :
    (targets t g patches).Nodup := by
  have h := nodup_groups (accepted t g patches)
  rwa [groups_accepted, List.map_map, show Prod.fst ∘ _ = id from rfl, List.map_id] at h

theorem mem_targets (hp : p ∈ patches) (hl : place? t g p = some l) : l ∈ targets t g patches :=
  List.mem_eraseDups.2 (List.mem_filterMap.2 ⟨p, hp, hl⟩)

theorem patchesAt_of_not_mem (hl : l ∉ targets t g patches) : patchesAt t g patches l = [] :=
  List.filter_eq_nil_iff.2 fun _ hp heq => hl (mem_targets hp (of_decide_eq_true heq))

/-! ## The order of the results -/

/-- Things that have a value, by their values, are the things that have a value. -/
theorem perm_flatMap_filter {α β : Type} [DecidableEq β] {value? : α → Option β} {bs : List β}
    {as : List α} (hnodup : bs.Nodup) (h : ∀ a ∈ as, ∀ b, value? a = some b → b ∈ bs) :
    (bs.flatMap fun b => as.filter fun a => value? a = some b).Perm
      (as.filter fun a => (value? a).isSome) := by
  induction as with
  | nil => simp
  | cons a as ih =>
    have ih := ih fun x hx => h x (List.mem_cons_of_mem _ hx)
    cases ha : value? a with
    | none => simpa [List.filter_cons, ha] using ih
    | some b =>
      obtain ⟨front, back, rfl⟩ := List.append_of_mem (h a List.mem_cons_self b ha)
      have hne : ∀ c ∈ front ++ back, c ≠ b := by
        rintro c hc rfl
        rw [List.nodup_middle, List.nodup_cons] at hnodup
        exact hnodup.1 hc
      have hother : ∀ cs ⊆ front ++ back,
          (cs.flatMap fun c => (a :: as).filter fun x => value? x = some c) =
            cs.flatMap fun c => as.filter fun x => value? x = some c := by
        intro cs hcs
        refine List.flatMap_congr fun c hc => ?_
        rw [List.filter_cons, if_neg (by simpa [ha] using (hne c (hcs hc)).symm)]
      rw [List.flatMap_append, List.flatMap_cons, hother _ (List.subset_append_left _ _),
        hother _ (List.subset_append_right _ _), List.filter_cons, List.filter_cons,
        if_pos (by simp [ha]), if_pos (by simp [ha]), List.cons_append]
      rw [List.flatMap_append, List.flatMap_cons] at ih
      exact List.perm_middle.trans (ih.cons a)

/-- The patches are reported in another order, each of them once. -/
theorem order_perm (t : FileTree) (g : Guard) (patches : List SourcePatch) :
    (order t g patches).Perm patches := by
  have haccepted : ((targets t g patches).flatMap (patchesAt t g patches)).Perm
      (patches.filter fun p => (place? t g p).isSome) :=
    perm_flatMap_filter (nodup_targets t g patches) fun p hp l hl => mem_targets hp hl
  have hsplit := List.filter_append_perm (fun p => (place? t g p).isNone) patches
  simp only [Option.not_isNone] at hsplit
  exact (haccepted.append_left _).trans hsplit

/-! ## The results of one file -/

/-- The result of a patch to a file, as the file is found. -/
structure FileAnswer (t : FileTree) (l : Location) (p : SourcePatch) (r : StepResult) : Prop where
  id : r.id = p.id
  unreadable : ∀ cause, t.readText l.path = .error cause → r.result = .error (.io l.path cause)
  readable : ∀ found, t.readText l.path = .ok found → ∃ o, r.result = .ok o ∧ o.file = l.path

theorem FileAnswer.of_ok {found : String} {o : StepOutcome} (h : t.readText l.path = .ok found)
    (ho : o.file = l.path) : FileAnswer t l p ⟨p.id, .ok o⟩ where
  id := rfl
  unreadable := fun cause hcause => by
    rw [h] at hcause
    cases hcause
  readable := fun _ _ => ⟨o, rfl, ho⟩

theorem FileAnswer.of_error {cause : IoError} (h : t.readText l.path = .error cause) :
    FileAnswer t l p ⟨p.id, .error (.io l.path cause)⟩ where
  id := rfl
  unreadable := fun cause' hcause => by
    rw [h] at hcause
    rw [Except.error.inj hcause]
  readable := fun found hfound => by
    rw [h] at hfound
    cases hfound

theorem file_unwritten (reason : String) (o : StepOutcome) : (unwritten reason o).file = o.file := by
  cases o with
  | applied file => rfl
  | alreadyApplied file => rfl
  | skipped file reason => rfl
  | failed file reason => rfl

/-- Every patch of a file has one outcome, in the order of the patches. -/
theorem forall₂_planOutcomes (file : Path) (found : String) (patches : List SourcePatch)
    (d : Dialect) :
    List.Forall₂ (fun p x => x.1 = p.id ∧ x.2.file = file) patches
      (planOutcomes file found patches d) := by
  induction patches generalizing found with
  | nil => exact .nil
  | cons p patches ih => exact .cons ⟨rfl, file_outcomeOf file _⟩ (ih _)

/-- Every patch of a file has one result, in the order of the patches. -/
theorem forall₂_runFile (d : Dialect) (mode : RunMode) (t : FileTree) (l : Location)
    (patches : List SourcePatch) :
    List.Forall₂ (FileAnswer t l) patches (runFile d mode t l patches).1 := by
  cases hread : t.readText l.path with
  | error cause =>
    rw [runFile_of_error hread, List.forall₂_map_right_iff, List.forall₂_same]
    exact fun p _ => .of_error hread
  | ok found =>
    have hall : ∀ change : StepOutcome → StepOutcome, (∀ o, (change o).file = o.file) →
        List.Forall₂ (FileAnswer t l) patches ((planOutcomes l.path found patches d).map
          fun x => ⟨x.1, .ok (change x.2)⟩) := by
      intro change hchange
      rw [List.forall₂_map_right_iff]
      refine (forall₂_planOutcomes l.path found patches d).imp fun p x hx => ?_
      rw [hx.1]
      exact .of_ok hread ((hchange x.2).trans hx.2)
    by_cases hquiet : mode = .check ∨ (planEdit l.path found patches d).isNoop = true
    · rw [runFile_of_quiet hread hquiet]
      exact hall id fun _ => rfl
    · rw [not_or, Bool.not_eq_true] at hquiet
      obtain ⟨hmode, hnoop⟩ := hquiet
      obtain rfl : mode = .write := by
        cases mode with
        | write => rfl
        | check => exact absurd rfl hmode
      cases happly : (planEdit l.path found patches d).apply t with
      | mk result u =>
        cases result with
        | ok o =>
          rw [runFile_of_write hread hnoop happly]
          exact hall id fun _ => rfl
        | error cause =>
          rw [runFile_of_refused hread hnoop happly]
          exact hall (unwritten cause.message) (file_unwritten _)

/-! ## The results of all files -/

/-- The tree that the group of a place finds when its turn comes. -/
def treeAt (d : Dialect) (mode : RunMode) :
    FileTree → List (Location × List SourcePatch) → Location → FileTree
  | t, [], _ => t
  | t, (m, patches) :: gs, l =>
    if m = l then t else treeAt d mode (runFile d mode t m patches).2 gs l

/-- A dry run finds every file as it was. -/
theorem treeAt_check (d : Dialect) (t : FileTree) (gs : List (Location × List SourcePatch))
    (l : Location) : treeAt d .check t gs l = t := by
  induction gs with
  | nil => rfl
  | cons x gs ih =>
    obtain ⟨m, patches⟩ := x
    rw [treeAt, snd_runFile_check, ih, ite_self]

/-- Groups at different places are answered one after the other, each as its file is found when its
turn comes. -/
theorem forall₂_runGroups {at? : SourcePatch → Option Location}
    (hnodup : (gs.map Prod.fst).Nodup) (hat : ∀ x ∈ gs, ∀ p ∈ x.2, at? p = some x.1) :
    List.Forall₂ (fun p r => ∃ l ∈ gs.map Prod.fst, at? p = some l ∧
        FileAnswer (treeAt d mode t gs l) l p r)
      (gs.flatMap Prod.snd) (runGroups d mode t gs).1 := by
  induction gs generalizing t with
  | nil => exact .nil
  | cons x gs ih =>
    obtain ⟨l, patches⟩ := x
    rw [List.map_cons, List.nodup_cons] at hnodup
    rw [List.flatMap_cons]
    refine List.rel_append ?_ ?_
    · have hhere : ∀ p ∈ patches, at? p = some l := hat _ List.mem_cons_self
      refine (List.forall₂_and_left _ _ |>.2 ⟨hhere, forall₂_runFile d mode t l patches⟩).imp ?_
      rintro p r ⟨hp, hanswer⟩
      exact ⟨l, List.mem_cons_self, hp, by rwa [treeAt, if_pos rfl]⟩
    · refine (ih hnodup.2 fun y hy => hat y (List.mem_cons_of_mem _ hy)).imp ?_
      rintro p r ⟨m, hm, hpm, hanswer⟩
      refine ⟨m, List.mem_cons_of_mem _ hm, hpm, ?_⟩
      have hne : l ≠ m := fun heq => hnodup.1 (heq ▸ hm)
      rw [treeAt, if_neg hne]
      exact hanswer

/-- The result of a patch: its path may not be written, or its file was found as it was when its turn
came. -/
structure Answer (u : FileTree) (g : Guard) (turn : Location → FileTree) (p : SourcePatch)
    (r : StepResult) : Prop where
  id : r.id = p.id
  refused : ∀ cause, g.validate u p.file = .error cause → r.result = .error (.safety cause)
  unreadable : ∀ l cause, g.validate u p.file = .ok l →
    (turn l).readText l.path = .error cause → r.result = .error (.io l.path cause)
  readable : ∀ l found, g.validate u p.file = .ok l → (turn l).readText l.path = .ok found →
    ∃ o, r.result = .ok o ∧ o.file = l.path

theorem forall₂_refused (t : FileTree) (g : Guard) (turn : Location → FileTree)
    (patches : List SourcePatch) :
    List.Forall₂ (Answer t g turn) (patches.filter fun p => (place? t g p).isNone)
      (refused t g patches) := by
  induction patches with
  | nil => exact .nil
  | cons p patches ih =>
    rw [refused, List.filterMap_cons, List.filter_cons, ← refused]
    cases hp : g.validate t p.file with
    | ok l => simpa [place?, hp, Except.toOption] using ih
    | error cause =>
      simp only [place?, hp, Except.toOption, Option.isNone_none, if_true]
      refine .cons ⟨rfl, fun cause' h => ?_, fun l _ h => ?_, fun l _ h => ?_⟩ ih
      · rw [Except.error.inj (hp.symm.trans h)]
      · cases hp.symm.trans h
      · cases hp.symm.trans h

/-- A run answers each patch once, in the order in which patches are reported. -/
theorem forall₂_run (g : Guard) (d : Dialect) (mode : RunMode) (t : FileTree)
    (patches : List SourcePatch) :
    List.Forall₂ (Answer t g (treeAt d mode t (groups (accepted t g patches)))) (order t g patches)
      (run g d mode t patches).1 := by
  have hgroups : ∀ x ∈ groups (accepted t g patches), ∀ p ∈ x.2, place? t g p = some x.1 := by
    rw [groups_accepted]
    intro x hx p hp
    obtain ⟨l, -, rfl⟩ := List.mem_map.1 hx
    exact of_decide_eq_true (List.mem_filter.1 hp).2
  have hflat : (targets t g patches).flatMap (patchesAt t g patches) =
      (groups (accepted t g patches)).flatMap Prod.snd := by
    rw [groups_accepted, List.flatMap_map]
  rw [order, hflat]
  refine List.rel_append (forall₂_refused t g _ patches) ?_
  refine (forall₂_runGroups (nodup_groups _) hgroups).imp ?_
  rintro p r ⟨l, -, hp, hanswer⟩
  have hl := place?_eq_some_iff.1 hp
  refine ⟨hanswer.id, fun cause h => ?_, fun m cause hm => ?_, fun m found hm => ?_⟩
  · cases hl.symm.trans h
  · obtain rfl := Except.ok.inj (hl.symm.trans hm)
    exact hanswer.unreadable cause
  · obtain rfl := Except.ok.inj (hl.symm.trans hm)
    exact hanswer.readable found

theorem exists_of_forall₂ {α β : Type} {R : α → β → Prop} {as : List α} {bs : List β} {a : α}
    (h : List.Forall₂ R as bs) (ha : a ∈ as) : ∃ b ∈ bs, R a b := by
  induction h with
  | nil => cases ha
  | cons hab _ ih =>
    rcases List.mem_cons.1 ha with rfl | ha
    · exact ⟨_, List.mem_cons_self, hab⟩
    · obtain ⟨b, hb, hr⟩ := ih ha
      exact ⟨b, List.mem_cons_of_mem _ hb, hr⟩

theorem ids_of_forall₂ {turn : Location → FileTree} {results : List StepResult}
    (h : List.Forall₂ (Answer t g turn) patches results) :
    results.map (·.id) = patches.map (·.id) := by
  induction h with
  | nil => rfl
  | cons hanswer _ ih => rw [List.map_cons, List.map_cons, hanswer.id, ih]

end Patching

namespace Linker

variable {t t' u : FileTree} {k : Linker} {mode : RunMode} {plan : LinkPlan}
  {results : List StepResult}

/-- Each of the things that edits were planned for has one result, in their order: that of the edit
planned for it in the tree that the edits before it have left. -/
theorem forall₂_runEdits {α : Type} {step : FileTree → α → Except LinkError FileEdit}
    {id : α → String} {as : List α} (h : runEdits step id mode t as = (.ok results, u)) :
    List.Forall₂ (fun a r => ∃ v e, step v a = .ok e ∧ r = ⟨id a, (runEdit mode v e).1⟩) as
      results := by
  induction as generalizing t results with
  | nil =>
    obtain ⟨hresults, -⟩ := Prod.mk.inj h
    rw [← Except.ok.inj hresults]
    exact .nil
  | cons a as ih =>
    obtain ⟨e, rest, he, hrest, rfl⟩ := runEdits_cons_eq_ok h
    exact .cons ⟨t, e, he, rfl⟩ (ih hrest)

/-- The results of a run are one for each family, in the order of the families, and then one for each
of the patches that register families and of the patches of the plan: those that may not be written
first, the others by their files. -/
theorem link_accounts (h : k.link mode t plan = (.ok results, t')) :
    ∃ first u patches rest,
      k.linkDescriptors mode t plan.fonts = (.ok first, u) ∧
      k.fontPatches u plan.fonts = .ok patches ∧
      results = first ++ rest ∧
      List.Forall₂ (fun f r => ∃ v e, k.descriptorEdit v f = .ok e ∧
        r = ⟨"font-family-" ++ f.resourceId, (runEdit mode v e).1⟩) plan.fonts first ∧
      (Patching.order u k.guard (patches ++ plan.patches)).Perm (patches ++ plan.patches) ∧
      List.Forall₂ (Patching.Answer u k.guard (Patching.treeAt k.dialect mode u
        (Patching.groups (Patching.accepted u k.guard (patches ++ plan.patches)))))
          (Patching.order u k.guard (patches ++ plan.patches)) rest := by
  obtain ⟨first, u, patches, hfirst, hpatches, rfl, -⟩ := link_eq_ok h
  exact ⟨first, u, patches, _, hfirst, hpatches, rfl, forall₂_runEdits hfirst,
    Patching.order_perm _ _ _, Patching.forall₂_run _ _ _ _ _⟩

/-- A plan whose patches have one name: two of them are for one file that is spelled in two ways, one
may not be written, and the file of one is not there. -/
def mixedPlan : LinkPlan where
  info := plainPlan.info
  fonts := plainPlan.fonts
  patches := [⟨"p", ⟨"app/build.gradle"⟩, .removeLines "old"⟩,
    ⟨"p", ⟨"app/lost.gradle"⟩, .removeLines "old"⟩, ⟨"p", ⟨"../build.gradle"⟩, .removeLines "old"⟩,
    ⟨"q", ⟨"app/./build.gradle"⟩, .removeLines "kept"⟩]

theorem link_accounts_mixed : ∃ results,
    plainLinker.link .check plainProject mixedPlan = (.ok results, plainProject) ∧
    results.map (·.id) = ["font-family-lato", "p", "import-react-font-manager",
      "register-font-lato", "p", "q", "p"] ∧
    ⟨"p", .error (.io ⟨"/android/app/lost.gradle"⟩ .notFound)⟩ ∈ results := by
  have hdry : plainLinker.linkDescriptors .check plainProject mixedPlan.fonts =
      (.ok [⟨"font-family-lato", .ok (.applied latoXml.path)⟩], plainProject) := by
    decide +kernel
  have hfile : plainLinker.applicationFile plainProject =
      .ok ⟨"/android/app/src/main/java/MainApplication.java"⟩ := by decide +kernel
  have hpatches : plainLinker.fontPatches plainProject mixedPlan.fonts = _ :=
    fontPatches_of_ok (List.cons_ne_nil _ _) hfile
  have hrun := link_of_ok_ok hdry hpatches
  rw [Patching.snd_run_check] at hrun
  obtain ⟨first, u, patches, rest, hfirst, hpatches', hresults, -, hperm, hanswers⟩ :=
    link_accounts hrun
  obtain ⟨hsame, rfl⟩ := Prod.mk.inj (hdry.symm.trans hfirst)
  obtain rfl := Except.ok.inj hsame
  obtain rfl := Except.ok.inj (hpatches.symm.trans hpatches')
  refine ⟨_, hrun, ?_, ?_⟩
  · rw [hresults, List.map_append, Patching.ids_of_forall₂ hanswers]
    decide +kernel
  · have hmem : ⟨"p", ⟨"app/lost.gradle"⟩, .removeLines "old"⟩ ∈ Patching.order plainProject
        plainLinker.guard _ := hperm.mem_iff.2 (List.mem_append_right _ (by decide))
    obtain ⟨⟨id, result⟩, hr, hanswer⟩ := Patching.exists_of_forall₂ hanswers hmem
    obtain rfl := hanswer.id
    obtain rfl := hanswer.unreadable ["android", "app", "lost.gradle"] .notFound (by decide +kernel)
      (by rw [Patching.treeAt_check]; decide +kernel)
    rw [hresults]
    exact List.mem_append_right _ hr

end Linker

end AndroidFonts
