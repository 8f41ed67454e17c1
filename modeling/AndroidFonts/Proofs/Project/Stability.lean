/-
# `AndroidFonts.Proofs.Project.Stability` — what stays the same while a project grows

A run writes descriptors before it looks for the application class and before it judges the paths of
a plan's own patches.  What it looks up later is what it would have looked up before, as long as the
places in question have no link on them: a path resolves to the same place
(`Guard.resolveFrom_grows`), and what is read there is the same.
-/
import AndroidFonts.Proofs.Project.Sources
import AndroidFonts.Proofs.Tree.Making
import AndroidFonts.Proofs.Tree.Walk

namespace AndroidFonts

open FileTree

namespace Guard

variable {t t' : FileTree} {k : Nat} {p : Path} {r l : Location}

/-- In a grown tree a path resolves as before, to a place that has no link on it there.  Where more
of the path leads somewhere now, it leads to the same names. -/
theorem resolveFrom_grows (h : Grows t t') (hp : p.isAbsolute = true)
    (hres : resolveFrom t k p = .ok r) (hr : t'.Unlinked r) : resolveFrom t' k p = .ok r := by
  induction k generalizing p r with
  | zero => exact h.resolve hp hres
  | succ k ih =>
    rcases resolveFrom_cases hres hp with
      ⟨hr', hwhy⟩ | ⟨i, q, name, l, hk, -, hpop, hname, hq, hl, rfl⟩
    · have hresolve := h.resolve hp hr'
      rw [resolveFrom]
      split
      · exact hresolve
      · rename_i hpath
        rcases hwhy with hpath' | hk | hname | hq
        · obtain ⟨m, hm⟩ := hasPath_iff.1 hpath'
          exact absurd (hasPath_iff.2 ⟨m, h.locate hp hm⟩) hpath
        · cases hk
        · simp only [hname]
          exact hresolve
        · simp only [hq]
          split
          · rename_i heq
            cases heq
          · exact hresolve
    · obtain rfl := Nat.succ.inj hk
      have hd : l <+: l ++ [name] := List.prefix_append _ _
      have hrest := ih hpop.isAbsolute hl (hr.of_isPrefix hd)
      rw [resolveFrom]
      split
      · rename_i hpath
        obtain ⟨m, hm⟩ := hasPath_iff.1 hpath
        obtain ⟨hallowed, n, hn, hleads⟩ := locate_eq_ok_iff.1 hm
        rw [startOf_of_isAbsolute hp] at hleads
        obtain ⟨a, b, c, hab, hc, hm'⟩ := split_of_popped hpop hleads
        have hqtext : q.text ≠ "" := by
          intro he
          have := hpop.isAbsolute
          simp [Path.isAbsolute, he] at this
        have hqc : t'.locate q = .ok c := by
          refine locate_eq_ok_iff.2 ⟨hallowed.of_isPrefix hqtext hpop.isPrefix, a, by omega, ?_⟩
          rwa [startOf_of_isAbsolute hpop.isAbsolute]
        obtain rfl : l = c := Except.ok.inj (hrest.symm.trans (resolveFrom_of_locate hqc))
        have hnamed : Location.Named [name] := fun s hs =>
          List.mem_singleton.1 hs ▸ hpop.isName
        obtain ⟨-, rfl⟩ := hm'.eq_append hnamed fun d hd =>
          hr (l ++ d) ((List.prefix_append_right_inj l).2 hd)
        exact resolve_of_locate hm
      · simp only [hname, hq, hrest]

/-- The path of a place that resolves to something that is there leads there, if the system takes
it. -/
theorem locate_of_resolveFrom_path (hl : l.Named) (hallowed : Allowed l.path)
    (h : resolveFrom t k l.path = .ok r) (hr : t.Reached r) : t.locate l.path = .ok r := by
  induction k generalizing l r with
  | zero =>
    obtain ⟨-, hleads⟩ := resolve_eq_ok_iff.1 h
    exact locate_eq_ok_iff.2 ⟨hallowed, hleads⟩
  | succ k ih =>
    rcases resolveFrom_cases h l.isAbsolute_path with
      ⟨hres, -⟩ | ⟨i, q, name, m, hk, hpath, hpop, hname, hq, hm, rfl⟩
    · obtain ⟨-, hleads⟩ := resolve_eq_ok_iff.1 hres
      exact locate_eq_ok_iff.2 ⟨hallowed, hleads⟩
    · obtain rfl := Nat.succ.inj hk
      rcases List.eq_nil_or_concat' l with rfl | ⟨d, last, rfl⟩
      · rw [t.hasPath_top] at hpath
        nomatch hpath
      · rw [Location.fileName?_path hl] at hname
        rw [Location.parent?_path hl] at hq
        obtain rfl := Option.some.inj hname
        obtain rfl := Option.some.inj hq
        have hd : d <+: d ++ [last] := List.prefix_append _ _
        have habove := ih (hl.above hd)
          (hallowed.of_isPrefix (Location.path_text_ne d) (Location.path_prefix_path hd)) hm
          (hr.of_isPrefix (List.prefix_append _ _))
        obtain ⟨-, n, hn, hleads⟩ := (locate_path_eq_ok_iff (hl.above hd)).1 habove
        exact (locate_path_eq_ok_iff hl).2 ⟨hallowed, n, hn, hleads.append hr.leads_append⟩

/-- Whether a path resolves to a place that has no link on it. -/
def Clear (t : FileTree) (p : Path) : Prop := ∃ r, resolve t p = .ok r ∧ t.Unlinked r

theorem Clear.resolve_eq (hclear : Clear t p) (h : Grows t t') (hp : p.isAbsolute = true) :
    resolve t' p = resolve t p := by
  obtain ⟨r, hr, hunlinked⟩ := hclear
  rw [hr]
  exact resolveFrom_grows h hp hr (h.unlinked hunlinked)

theorem Clear.validate_eq {g : Guard} (hclear : Clear t (g.spelling p)) (h : Grows t t') :
    g.validate t' p = g.validate t p := by
  rw [validate, validate, ← spelling, hclear.resolve_eq h (isAbsolute_spelling g p)]

end Guard

/-! ## The application file -/

namespace Linker

variable {t t' : FileTree} {k : Linker} {rs : List Location} {l : Location} {p : Path}
  {file : String}

/-- New files do not have the name that is searched for. -/
def Foreign (t : FileTree) (rs : List Location) (file : String) : Prop :=
  ∀ r ∈ rs, t.Holds r ∨ r.getLast? ≠ some file

theorem exists_file_iff {d names : Location} (h : Grown rs t t') (hnew : Foreign t rs file)
    (hlast : names.getLast? = some file) :
    (∃ c, t.get? (d ++ names) = some (.file c)) ↔ ∃ c, t'.get? (d ++ names) = some (.file c) := by
  constructor
  · rintro ⟨c, hc⟩
    exact h.grows.file hc
  · rintro ⟨c, hc⟩
    by_cases hmem : d ++ names ∈ rs
    · rcases hnew _ hmem with ⟨node, hnode, hlink⟩ | hne
      · cases node with
        | file c => exact ⟨c, hnode⟩
        | directory =>
          rw [h.grows.directory hnode] at hc
          nomatch hc
        | link target => exact absurd rfl (hlink target)
      · rw [List.getLast?_append, hlast] at hne
        exact absurd rfl hne
    · exact ⟨c, h.get?_of_file hmem hc⟩

theorem find?_walk_grown (d : Location) (ht : t.IsTree) (h : Grown rs t t')
    (hnew : Foreign t rs file) : (t'.walk d).find? (fun names => names.getLast? = some file) =
      (t.walk d).find? fun names => names.getLast? = some file :=
  find?_walk_congr h.isTree ht fun _ hnames =>
    (exists_file_iff h hnew (of_decide_eq_true hnames)).symm

/-- A search below a directory finds what it would have found before. -/
theorem findBelow_grown (ht : t.IsTree) (h : Grown rs t t') (hl : l.Named)
    (hclear : Guard.Clear t l.path) (hnew : Foreign t rs file) :
    Layout.findBelow t' l.path file = Layout.findBelow t l.path file := by
  unfold Layout.findBelow
  cases hd : t.locate l.path with
  | ok d =>
    have hreached := reached_of_resolve l.isAbsolute_path (resolve_of_locate hd)
    have hdir : t'.get? d = some .directory ↔ t.get? d = some .directory := by
      obtain ⟨node, hnode, hlink⟩ := hreached.holds
      cases node with
      | directory => exact iff_of_true (h.grows.directory hnode) hnode
      | file c =>
        obtain ⟨c', hc'⟩ := h.grows.file hnode
        rw [hnode, hc']
        simp
      | link target => exact absurd rfl (hlink target)
    simp only [h.grows.locate l.isAbsolute_path hd, hdir, find?_walk_grown d ht h hnew]
  | error cause =>
    -- the directory is new, so the files below it are
    cases hd' : t'.locate l.path with
    | error cause' => rfl
    | ok d =>
      simp only
      split
      · rw [Option.map_eq_none_iff, List.find?_eq_none]
        intro names hnames hlast
        obtain ⟨-, c, hc⟩ := (mem_walk_iff h.isTree).1 hnames
        obtain ⟨c, hc⟩ := (exists_file_iff h hnew (of_decide_eq_true hlast)).2 ⟨c, hc⟩
        have hres : Guard.resolve t l.path = .ok d := by
          rw [← hclear.resolve_eq h.grows l.isAbsolute_path]
          exact Guard.resolveFrom_of_locate hd'
        have hlocate := Guard.locate_of_resolveFrom_path hl ((locate_path_eq_ok_iff hl).1 hd').1 hres
          ((ht.reached (holds_of_file hc)).of_isPrefix (List.prefix_append _ _))
        rw [hd] at hlocate
        nomatch hlocate
      · rfl

/-- The application file is the one that would have been found before. -/
theorem applicationFile_grown (ht : t.IsTree) (h : Grown rs t t')
    (hclear : ∀ d ∈ Layout.sourceDirectories, Guard.Clear t (k.root.join d))
    (hnew : Foreign t rs (Layout.applicationClass ++ "." ++ k.dialect.extension))
    (hfile : k.applicationFile t' = .ok p) : k.applicationFile t = .ok p := by
  obtain ⟨q, r, hfind, hvalidate, rfl, hroot⟩ := applicationFile_cases hfile
  have hsearch : Layout.findInSources t k.root
      (Layout.applicationClass ++ "." ++ k.dialect.extension) = some q := by
    have hbelow : ∀ d ∈ Layout.sourceDirectories,
        Layout.findBelow t' (k.root.join d) (Layout.applicationClass ++ "." ++ k.dialect.extension) =
          Layout.findBelow t (k.root.join d)
            (Layout.applicationClass ++ "." ++ k.dialect.extension) := by
      intro d hd
      obtain ⟨name, -, hjoin, hnamed⟩ := join_sourceDirectory hroot hd
      have hcleard := hclear d hd
      rw [root, hjoin] at hcleard ⊢
      exact findBelow_grown ht h hnamed hcleard hnew
    rw [← (findSourceFile_eq_ok_iff.1 hfind).2]
    simp only [Layout.findInSources, Layout.sourceDirectories, List.findSome?_cons,
      List.findSome?_nil]
    rw [hbelow _ (by simp [Layout.sourceDirectories]), hbelow _ (by simp [Layout.sourceDirectories])]
  obtain ⟨l, m, c, rfl, -, hm, hc, e, he, hdir⟩ := resolve_of_findInSources ht hroot hsearch
  have hmain : Layout.ensureProject t k.root = .ok () := by
    have hjoin : k.root.join "app/src/main" =
        Location.path (k.guard.root ++ ["app", "src", "main"]) :=
      Location.path_join_intercalate hroot named_main (by simp)
    rw [Layout.ensureProject, hjoin, isDirectory_iff.2 ⟨e, he, hdir⟩, if_pos rfl]
  have hplan : Layout.findSourceFile t k.root Layout.applicationClass k.dialect =
      .ok (Location.path l) := findSourceFile_eq_ok_iff.2 ⟨hmain, hsearch⟩
  have hclearl : Guard.Clear t (k.guard.spelling (Location.path l)) :=
    ⟨m, by rw [Guard.spelling_path]; exact hm, (ht.reached ⟨_, hc, by simp⟩).unlinked⟩
  unfold applicationFile
  rw [hplan]
  simp only [validate]
  rw [← hclearl.validate_eq h.grows, hvalidate]

end Linker

end AndroidFonts
