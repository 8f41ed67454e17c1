/-
# `AndroidFonts.Proofs.Link.Reordering` — patches of different files do not depend on each other

Patches may be run in any order that keeps the order of those for one place: each patch has the same
result, and the tree that is left is the same (`Patching.run_reordered`).  What a patch comes to is its
answer, the patch with its result (`Patching.answers`).

In a dry run this is a matter of lists: the answers are those of the refused patches and those of each
place, and what happens at a place depends on the patches of that place alone
(`Patching.answers_check`).  A run differs from its dry run only in the edits that cannot be made
(`Patching.run_write_of_check`), and the edits are the same in another order.

As there, two accepted places must not lead to one file.  Where they do, the first of two patches finds
its work to do and the second finds it done, in either order (`Patching.run_depends_on_order`).
-/
import AndroidFonts.Proofs.Link.Accounts
import AndroidFonts.Proofs.Link.Modes

namespace AndroidFonts

open FileTree

namespace Patching

variable {t u u' : FileTree} {g : Guard} {d : Dialect} {mode : RunMode} {l m : Location}
  {e : FileEdit} {es es' : List FileEdit} {p : SourcePatch} {ps qs : List SourcePatch}
  {gs : List (Location × List SourcePatch)}

/-! ## Answers -/

/-- The patches with their results, in the order in which they are reported. -/
def answers (g : Guard) (d : Dialect) (mode : RunMode) (t : FileTree) (ps : List SourcePatch) :
    List (SourcePatch × StepResult) :=
  (order t g ps).zip (run g d mode t ps).1

/-- The answers of the patches of one place, in a dry run. -/
def answersAt (d : Dialect) (t : FileTree) (l : Location) (ps : List SourcePatch) :
    List (SourcePatch × StepResult) :=
  ps.zip (runFile d .check t l ps).1

/-- The answer of a patch whose path may not be written. -/
def rejection? (t : FileTree) (g : Guard) (p : SourcePatch) : Option (SourcePatch × StepResult) :=
  match g.validate t p.file with
  | .ok _ => none
  | .error cause => some (p, ⟨p.id, .error (.safety cause)⟩)

theorem runGroups_check (d : Dialect) (t : FileTree) (gs : List (Location × List SourcePatch)) :
    (runGroups d .check t gs).1 = gs.flatMap fun x => (runFile d .check t x.1 x.2).1 := by
  induction gs with
  | nil => rfl
  | cons x gs ih =>
    obtain ⟨l, patches⟩ := x
    simp only [runGroups, snd_runFile_check, ih, List.flatMap_cons]

theorem zip_flatMap {α β γ : Type} {f : α → List β} {h : α → List γ} (as : List α)
    (hlength : ∀ a, (f a).length = (h a).length) :
    (as.flatMap f).zip (as.flatMap h) = as.flatMap fun a => (f a).zip (h a) := by
  induction as with
  | nil => rfl
  | cons a as ih =>
    rw [List.flatMap_cons, List.flatMap_cons, List.flatMap_cons, List.zip_append (hlength a), ih]

theorem zip_refused (t : FileTree) (g : Guard) (ps : List SourcePatch) :
    (ps.filter fun p => (place? t g p).isNone).zip (refused t g ps) =
      ps.filterMap (rejection? t g) := by
  induction ps with
  | nil => rfl
  | cons p ps ih =>
    rw [refused, List.filterMap_cons, List.filter_cons, List.filterMap_cons, ← refused, ← ih]
    unfold rejection? place?
    cases g.validate t p.file with
    | ok l => rfl
    | error cause => rfl

/-- In a dry run the answers are those of the refused patches and those of each place. -/
theorem answers_check (g : Guard) (d : Dialect) (t : FileTree) (ps : List SourcePatch) :
    answers g d .check t ps = ps.filterMap (rejection? t g) ++
      (targets t g ps).flatMap fun l => answersAt d t l (patchesAt t g ps l) := by
  have hrefused := (forall₂_refused t g (fun _ => t) ps).length_eq
  simp only [answers, order, run]
  rw [List.zip_append hrefused, zip_refused, runGroups_check, groups_accepted, List.flatMap_map,
    zip_flatMap _ fun l => (forall₂_runFile d .check t l _).length_eq]
  rfl

theorem place_of_mem_rejection {x : SourcePatch × StepResult}
    (h : x ∈ ps.filterMap (rejection? t g)) : place? t g x.1 = none := by
  obtain ⟨p, -, hp⟩ := List.mem_filterMap.1 h
  unfold rejection? at hp
  rw [place?_eq_none_iff]
  cases hvalidate : g.validate t p.file with
  | ok l =>
    rw [hvalidate] at hp
    cases hp
  | error cause =>
    rw [hvalidate] at hp
    cases hp
    exact ⟨cause, hvalidate⟩

theorem place_of_mem_answersAt {x : SourcePatch × StepResult}
    (h : x ∈ answersAt d t l (patchesAt t g ps l)) : place? t g x.1 = some l :=
  of_decide_eq_true (List.mem_filter.1 (List.of_mem_zip h).1).2

theorem flatMap_ite {α β : Type} [DecidableEq α] {as : List α} (hnodup : as.Nodup) (a : α)
    (bs : List β) :
    (as.flatMap fun x => if x = a then bs else []) = if a ∈ as then bs else [] := by
  induction as with
  | nil => rfl
  | cons x as ih =>
    rw [List.nodup_cons] at hnodup
    rw [List.flatMap_cons, ih hnodup.2]
    by_cases hx : x = a
    · subst hx
      rw [if_pos rfl, if_neg hnodup.1, if_pos List.mem_cons_self, List.append_nil]
    · have hmem : a ∈ x :: as ↔ a ∈ as := by simp [Ne.symm hx]
      rw [if_neg hx, List.nil_append]
      simp only [hmem]

/-- The answers of the patches of one place depend on those patches alone. -/
theorem filter_answers_check (g : Guard) (d : Dialect) (t : FileTree) (ps : List SourcePatch)
    (l : Location) :
    ((answers g d .check t ps).filter fun x => place? t g x.1 = some l) =
      answersAt d t l (patchesAt t g ps l) := by
  have hrejected : ((ps.filterMap (rejection? t g)).filter fun x => place? t g x.1 = some l) = [] :=
    List.filter_eq_nil_iff.2 fun x hx heq => by
      cases (place_of_mem_rejection hx).symm.trans (of_decide_eq_true heq)
  have hplace : ∀ k, ((answersAt d t k (patchesAt t g ps k)).filter
      fun x => place? t g x.1 = some l) =
        if k = l then answersAt d t l (patchesAt t g ps l) else [] := by
    intro k
    by_cases hk : k = l
    · subst hk
      rw [if_pos rfl, List.filter_eq_self]
      exact fun x hx => decide_eq_true (place_of_mem_answersAt hx)
    · rw [if_neg hk, List.filter_eq_nil_iff]
      intro x hx heq
      exact hk (Option.some.inj
        ((place_of_mem_answersAt hx).symm.trans (of_decide_eq_true heq)))
  rw [answers_check, List.filter_append, hrejected, List.nil_append, List.filter_flatMap]
  simp only [hplace]
  rw [flatMap_ite (nodup_targets t g ps)]
  split
  · rfl
  · rename_i hl
    rw [patchesAt_of_not_mem hl]
    rfl

/-! ## Reordered patches -/

/-- Some patches in another order, in which those for one place keep theirs. -/
structure Reordered (t : FileTree) (g : Guard) (ps qs : List SourcePatch) : Prop where
  perm : qs.Perm ps
  at_eq : ∀ l, patchesAt t g qs l = patchesAt t g ps l

theorem targets_perm (h : qs.Perm ps) : (targets t g qs).Perm (targets t g ps) := by
  refine (List.perm_ext_iff_of_nodup (nodup_targets t g qs) (nodup_targets t g ps)).2 fun l => ?_
  rw [targets, targets, List.mem_eraseDups, List.mem_eraseDups]
  exact (h.filterMap _).mem_iff

theorem Reordered.of_targets (h : qs.Perm ps)
    (hat : ∀ l ∈ targets t g ps, patchesAt t g qs l = patchesAt t g ps l) :
    Reordered t g ps qs := by
  refine ⟨h, fun l => ?_⟩
  by_cases hl : l ∈ targets t g ps
  · exact hat l hl
  · rw [patchesAt_of_not_mem hl, patchesAt_of_not_mem ((targets_perm h).mem_iff.not.2 hl)]

theorem Reordered.answers_check (h : Reordered t g ps qs) (d : Dialect) :
    (answers g d .check t qs).Perm (answers g d .check t ps) := by
  rw [Patching.answers_check, Patching.answers_check]
  simp only [h.at_eq]
  exact (h.perm.filterMap _).append ((targets_perm h.perm).flatMap_right _)

theorem preview_eq_targets (g : Guard) (d : Dialect) (t : FileTree) (ps : List SourcePatch) :
    preview g d t ps =
      (targets t g ps).filterMap fun l => groupEdit d t (l, patchesAt t g ps l) := by
  rw [preview_eq, groupEdits, groups_accepted, List.filterMap_map]
  rfl

theorem Reordered.preview (h : Reordered t g ps qs) (d : Dialect) :
    (preview g d t qs).Perm (preview g d t ps) := by
  rw [preview_eq_targets, preview_eq_targets]
  simp only [h.at_eq]
  exact (targets_perm h.perm).filterMap _

/-! ## Edits in another order -/

theorem refusal?_of_mem (hnodup : (es.map (·.file)).Nodup) (he : e ∈ es) :
    refusal? t es e.file = hindrance? t e := by
  obtain ⟨front, back, rfl⟩ := List.append_of_mem he
  rw [List.map_append, List.map_cons, List.nodup_middle, List.nodup_cons, ← List.map_append]
    at hnodup
  have hother : ∀ e' ∈ front ++ back, e'.file ≠ e.file := fun e' he' heq =>
    hnodup.1 (heq ▸ List.mem_map_of_mem he')
  have hback : refusal? t (e :: back) e.file = hindrance? t e := by
    have hsplit : e :: back = [e] ++ back := rfl
    rw [hsplit, refusal?_append, refusal?_singleton,
      refusal?_of_forall fun e' he' => hother e' (List.mem_append_right _ he'), Option.or_none]
  rw [refusal?_append, hback,
    refusal?_of_forall fun e' he' => hother e' (List.mem_append_left _ he'), Option.none_or]

theorem refusal?_perm (h : es.Perm es') (hnodup : (es.map (·.file)).Nodup) (file : Path) :
    refusal? t es file = refusal? t es' file := by
  by_cases hfile : ∃ e ∈ es, e.file = file
  · obtain ⟨e, he, rfl⟩ := hfile
    rw [refusal?_of_mem hnodup he,
      refusal?_of_mem ((h.map _).nodup_iff.1 hnodup) (h.mem_iff.1 he)]
  · have hnone : ∀ e ∈ es, e.file ≠ file := fun e he heq => hfile ⟨e, he, heq⟩
    rw [refusal?_of_forall hnone, refusal?_of_forall fun e he => hnone e (h.mem_iff.2 he)]

/-- A preview has one edit for a file. -/
theorem nodup_preview (g : Guard) (d : Dialect) (t : FileTree) (ps : List SourcePatch) :
    ((preview g d t ps).map (·.file)).Nodup := by
  have hnamed : ∀ x ∈ groups (accepted t g ps), x.1.Named := by
    intro x hx
    obtain ⟨p, hp⟩ := mem_groups hx
    exact (Guard.named_of_validate (mem_accepted.1 hp).2).1
  have hnodup := nodup_groups (accepted t g ps)
  rw [preview_eq]
  generalize groups (accepted t g ps) = gs at hnamed hnodup ⊢
  induction gs with
  | nil => exact List.nodup_nil
  | cons x gs ih =>
    rw [List.map_cons, List.nodup_cons] at hnodup
    have hrest := ih (fun y hy => hnamed y (List.mem_cons_of_mem _ hy)) hnodup.2
    rw [groupEdits, List.filterMap_cons, ← groupEdits]
    cases he : groupEdit d t x with
    | none => exact hrest
    | some e =>
      rw [List.map_cons, List.nodup_cons]
      refine ⟨fun hmem => hnodup.1 ?_, hrest⟩
      obtain ⟨e', he', heq⟩ := List.mem_map.1 hmem
      obtain ⟨-, y, hy, hfile, -⟩ := read_of_mem_groupEdits he'
      obtain ⟨-, hxfile, -⟩ := groupEdit_eq_some he
      have hsame := Location.path_injective (hnamed y (List.mem_cons_of_mem _ hy))
        (hnamed x List.mem_cons_self) (hfile.symm.trans (heq.trans hxfile))
      exact List.mem_map.2 ⟨y, hy, hsame⟩

/-- Edits leave the same tree in any order. -/
theorem Carried.get?_eq (h : Carried es t u) (h' : Carried es' t u') (hperm : es.Perm es')
    (m : Location) : u.get? m = u'.get? m := by
  by_cases hm : ∃ e ∈ es, hindrance? t e = none ∧ t.locate e.file = .ok m
  · obtain ⟨e, he, hnone, hm⟩ := hm
    have hread : ∀ {v : FileTree}, Alike t v → v.readText e.file = .ok e.after →
        v.get? m = some (.file (.text e.after)) := by
      intro v halike hv
      obtain ⟨k, hk, hholds⟩ := readText_eq_ok_iff.1 hv
      rw [halike.locate_eq] at hk
      obtain rfl := Except.ok.inj (hm.symm.trans hk)
      exact hholds
    rw [hread h.alike (h.named e he hnone),
      hread h'.alike (h'.named e (hperm.mem_iff.1 he) hnone)]
  · have hnone : ∀ e ∈ es, hindrance? t e = none → t.locate e.file ≠ .ok m :=
      fun e he hfree heq => hm ⟨e, he, hfree, heq⟩
    rw [h.other m hnone, h'.other m fun e he => hnone e (hperm.mem_iff.2 he)]

/-! ## Runs -/

section
variable (hlink : ∀ x ∈ accepted t g ps, t.namesLink (Location.path x.1) = false)
  (hfile : ∀ x ∈ accepted t g ps, ∀ y ∈ accepted t g ps, x.1 ≠ y.1 →
    ∀ r, t.locate (Location.path x.1) = .ok r → t.locate (Location.path y.1) ≠ .ok r)
include hlink hfile

theorem answers_write (d : Dialect) : answers g d .write t ps =
    (answers g d .check t ps).map (Prod.map id (tried t (preview g d t ps))) := by
  obtain ⟨-, hresults, -⟩ := run_write_of_check g d hlink hfile
  rw [answers, hresults, answers, ← List.zip_map_right]

/-- Patches that are run in another order, which keeps that of the patches for one place, come to the
same results and leave the same tree. -/
theorem run_reordered (d : Dialect) (h : Reordered t g ps qs) :
    (answers g d .write t qs).Perm (answers g d .write t ps) ∧
    (∀ l, ((answers g d .write t qs).filter fun x => place? t g x.1 = some l) =
      (answers g d .write t ps).filter fun x => place? t g x.1 = some l) ∧
    (∀ m, (run g d .write t qs).2.get? m = (run g d .write t ps).2.get? m) ∧
    (run g d .write t qs).2.current = (run g d .write t ps).2.current := by
  have hmem : ∀ x ∈ accepted t g qs, x ∈ accepted t g ps :=
    fun x => ((h.perm.filterMap _).mem_iff).1
  have hlink' : ∀ x ∈ accepted t g qs, t.namesLink (Location.path x.1) = false :=
    fun x hx => hlink x (hmem x hx)
  have hfile' : ∀ x ∈ accepted t g qs, ∀ y ∈ accepted t g qs, x.1 ≠ y.1 →
      ∀ r, t.locate (Location.path x.1) = .ok r → t.locate (Location.path y.1) ≠ .ok r :=
    fun x hx y hy => hfile x (hmem x hx) y (hmem y hy)
  obtain ⟨-, -, hcarried, -⟩ := run_write_of_check g d hlink hfile
  obtain ⟨-, -, hcarried', -⟩ := run_write_of_check g d hlink' hfile'
  have htried : tried t (preview g d t qs) = tried t (preview g d t ps) :=
    funext fun r => tried_congr fun o _ =>
      refusal?_perm (h.preview d) (nodup_preview g d t qs) o.file
  rw [answers_write hlink hfile, answers_write hlink' hfile', htried]
  refine ⟨(h.answers_check d).map _, fun l => ?_, fun m => hcarried'.get?_eq hcarried (h.preview d) m,
    hcarried'.alike.current.trans hcarried.alike.current.symm⟩
  have hpatch : (fun x : SourcePatch × StepResult => decide (place? t g x.1 = some l)) ∘
      Prod.map id (tried t (preview g d t ps)) = fun x => decide (place? t g x.1 = some l) := rfl
  rw [List.filter_map, List.filter_map, hpatch, filter_answers_check, filter_answers_check, h.at_eq]

end

def gradlePatches : List SourcePatch :=
  [removal "app/build.gradle" "old", removal "../build.gradle" "old",
    removal "app/src/main/java/MainApplication.java" "class", removal "app/./build.gradle" "kept"]

/-- The patches in another order, in which the two for one file keep theirs. -/
def shuffledPatches : List SourcePatch :=
  [removal "app/src/main/java/MainApplication.java" "class", removal "app/build.gradle" "old",
    removal "app/./build.gradle" "kept", removal "../build.gradle" "old"]

theorem run_reordered_shuffled :
    (answers ⟨["android"]⟩ .java .write Linker.plainProject shuffledPatches).Perm
      (answers ⟨["android"]⟩ .java .write Linker.plainProject gradlePatches) ∧
    ∀ m, (run ⟨["android"]⟩ .java .write Linker.plainProject shuffledPatches).2.get? m =
      (run ⟨["android"]⟩ .java .write Linker.plainProject gradlePatches).2.get? m := by
  have hlink : ∀ x ∈ accepted Linker.plainProject ⟨["android"]⟩ gradlePatches,
      Linker.plainProject.namesLink (Location.path x.1) = false := by decide +kernel
  have hfile : ∀ x ∈ accepted Linker.plainProject ⟨["android"]⟩ gradlePatches,
      ∀ y ∈ accepted Linker.plainProject ⟨["android"]⟩ gradlePatches, x.1 ≠ y.1 →
        (Linker.plainProject.locate (Location.path x.1)).toOption ≠
          (Linker.plainProject.locate (Location.path y.1)).toOption := by decide +kernel
  have hreordered : Reordered Linker.plainProject ⟨["android"]⟩ gradlePatches shuffledPatches :=
    .of_targets (by decide +kernel) (by decide +kernel)
  obtain ⟨hanswers, -, htree, -⟩ := run_reordered hlink
    (fun x hx y hy hne r hr hr' =>
      hfile x hx y hy hne (congrArg Except.toOption (hr.trans hr'.symm))) .java hreordered
  exact ⟨hanswers, htree⟩

/-- Two accepted places that are no links lead to one file, so the patch that comes first is the one
that has something to do. -/
theorem run_depends_on_order :
    (∀ x ∈ accepted bridgedSources ⟨["android"]⟩ farPatches,
      bridgedSources.namesLink (Location.path x.1) = false) ∧
    Reordered bridgedSources ⟨["android"]⟩ farPatches farPatches.reverse ∧
    (run ⟨["android"]⟩ .java .write bridgedSources farPatches).1 =
      [⟨"near", .ok (.applied ⟨"/android/inside/Main.java"⟩)⟩,
        ⟨"far", .ok (.alreadyApplied ⟨"/android/out/Main.java"⟩)⟩] ∧
    (run ⟨["android"]⟩ .java .write bridgedSources farPatches.reverse).1 =
      [⟨"far", .ok (.applied ⟨"/android/out/Main.java"⟩)⟩,
        ⟨"near", .ok (.alreadyApplied ⟨"/android/inside/Main.java"⟩)⟩] :=
  ⟨by decide +kernel, .of_targets (by decide +kernel) (by decide +kernel), by decide +kernel,
    by decide +kernel⟩

end Patching

end AndroidFonts
