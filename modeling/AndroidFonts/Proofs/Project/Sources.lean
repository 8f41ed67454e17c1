/-
# `AndroidFonts.Proofs.Project.Sources` — where the application class is found

The application file is found by a walk below a source directory, so it is a file, and the path it is
found under is the path of the source directory with the names of the walk after it.  The source
directory itself may be reached through links; below it the walk follows none.  So resolving that
path gives the place where the walk found the file, whatever the length of the path
(`Guard.resolveFrom_below`), and this is the place that is patched
(`Linker.applicationFile_eq_ok`).
-/
import AndroidFonts.Link.Linker
import AndroidFonts.Proofs.Project.Acceptance

namespace AndroidFonts

namespace Location

variable {l names : Location} {name : String}

theorem intercalate_append {sep : List Char} {xs ys : List (List Char)} (hx : xs ≠ [])
    (hy : ys ≠ []) :
    sep.intercalate (xs ++ ys) = sep.intercalate xs ++ sep ++ sep.intercalate ys := by
  induction xs with
  | nil => exact absurd rfl hx
  | cons x xs ih =>
    cases xs with
    | nil => simp [List.intercalate_cons_of_ne_nil hy]
    | cons x' xs =>
      have := ih (by simp)
      simpa using this

/-- Names after the path of a place, joined to it at once. -/
theorem path_join_intercalate (hl : l.Named) (hnames : names.Named) (hne : names ≠ []) :
    l.path.join ("/".intercalate names) = path (l ++ names) := by
  obtain ⟨name, rest, rfl⟩ := List.exists_cons_of_ne_nil hne
  have hname := hnames name List.mem_cons_self
  obtain ⟨c, cs, hc⟩ := List.exists_cons_of_ne_nil
    (show name.toList ≠ [] from fun h => hname.1.1 (by simpa using h))
  have hslash : c ≠ '/' := fun h => hname.1.2 (by simp [hc, h])
  have hrelative : (Path.mk ("/".intercalate (name :: rest))).isAbsolute = false := by
    cases rest <;> simp [Path.isAbsolute, hc, hslash]
  have hjoin : l.path.join ("/".intercalate (name :: rest)) =
      if l = [] then ⟨l.path.text ++ "/".intercalate (name :: rest)⟩
      else ⟨l.path.text ++ "/" ++ "/".intercalate (name :: rest)⟩ := by
    rw [Path.join, hrelative, Bool.false_or, if_neg (by simp [toList_path])]
    by_cases hl' : l = []
    · rw [if_pos hl', if_pos (by rw [hl', toList_path]; rfl)]
    · rw [if_neg hl', if_neg (getLast?_path hl hl')]
  rw [hjoin]
  by_cases hl' : l = []
  · rw [if_pos hl', hl']
    rfl
  · rw [if_neg hl', path.eq_def (l ++ name :: rest), Path.mk.injEq, ← String.toList_inj]
    simp only [path, String.toList_append, String.toList_intercalate, List.map_append]
    rw [intercalate_append (by simpa using hl') (by simp)]
    simp

theorem path_join (hl : l.Named) (hname : IsName name) :
    l.path.join name = path (l ++ [name]) := by
  have := @path_join_intercalate l [name] hl (fun s hs => List.mem_singleton.1 hs ▸ hname) (by simp)
  simpa using this

theorem foldl_join (hl : l.Named) (hnames : names.Named) :
    names.foldl Path.join l.path = path (l ++ names) := by
  induction names generalizing l with
  | nil => rw [List.append_nil]; rfl
  | cons name names ih =>
    have hname := hnames name List.mem_cons_self
    rw [List.foldl_cons, path_join hl hname,
      ih (hl.concat hname) fun s hs => hnames s (List.mem_cons_of_mem _ hs), List.append_assoc]
    rfl

end Location

namespace FileTree

variable {t : FileTree} {l names : Location}

theorem get?_of_mem_filesBelow {depth : Nat} (h : names ∈ t.filesBelow depth l) :
    ∃ c, t.get? (l ++ names) = some (.file c) := by
  induction depth generalizing l names with
  | zero => nomatch h
  | succ depth ih =>
    simp only [filesBelow, List.mem_flatMap] at h
    obtain ⟨name, -, h⟩ := h
    split at h
    · rename_i c hfile
      obtain rfl := List.mem_singleton.1 h
      exact ⟨c, hfile⟩
    · obtain ⟨rest, hrest, rfl⟩ := List.mem_map.1 h
      obtain ⟨c, hc⟩ := ih hrest
      exact ⟨c, by rwa [List.append_assoc] at hc⟩
    · nomatch h

/-- What a search below a directory finds is a file of that name, under the path of the directory. -/
theorem findBelow_eq_some {p : Path} {file : String} (ht : t.IsTree) (hl : l.Named)
    (h : Layout.findBelow t l.path file = some p) :
    ∃ d names c, t.locate l.path = .ok d ∧ t.get? (d ++ names) = some (.file c) ∧
      names.getLast? = some file ∧ names.Named ∧ p = Location.path (l ++ names) := by
  unfold Layout.findBelow at h
  cases hd : t.locate l.path with
  | error cause =>
    rw [hd] at h
    nomatch h
  | ok d =>
    simp only [hd] at h
    split at h
    · obtain ⟨names, hfind, rfl⟩ := Option.map_eq_some_iff.1 h
      have hlast := List.find?_some hfind
      obtain ⟨c, hc⟩ := get?_of_mem_filesBelow (List.mem_of_find?_eq_some hfind)
      have hnames : Location.Named names := fun s hs =>
        (ht.named (by rw [hc]; nofun) s (List.mem_append_right _ hs)).1
      exact ⟨d, names, c, rfl, hc, by simpa using hlast, hnames, Location.foldl_join hl hnames⟩
    · nomatch h

end FileTree

open FileTree

namespace Guard

variable {t : FileTree} {l d names : Location} {k : Nat}

/-- A path that leads somewhere resolves to where it leads. -/
theorem resolveFrom_of_locate (h : t.locate p = .ok l) : resolveFrom t k p = .ok l := by
  cases k with
  | zero => exact resolve_of_locate h
  | succ k =>
    rw [resolveFrom, hasPath_iff.2 ⟨l, h⟩, if_pos rfl]
    exact resolve_of_locate h

/-- Names after a path that leads somewhere are kept, if as far as they can be followed they are only
followed to their own places. -/
theorem resolveFrom_append (hnamed : Location.Named (l ++ names)) (hl : t.locate l.path = .ok d)
    (h : ∀ ys, ys <+: names → t.hasPath (Location.path (l ++ ys)) = true →
      t.locate (Location.path (l ++ ys)) = .ok (d ++ ys)) (hk : names.length ≤ k) :
    resolveFrom t k (Location.path (l ++ names)) = .ok (d ++ names) := by
  induction names using List.reverseRecOn generalizing k with
  | nil =>
    rw [List.append_nil, List.append_nil]
    exact resolveFrom_of_locate hl
  | append_singleton names name ih =>
    cases k with
    | zero => simp at hk
    | succ k =>
      by_cases hpath : t.hasPath (Location.path (l ++ (names ++ [name]))) = true
      · exact resolveFrom_of_locate (h _ List.prefix_rfl hpath)
      · rw [resolveFrom, if_neg hpath]
        rw [← List.append_assoc] at hnamed ⊢
        have habove : Location.Named (l ++ names) := hnamed.above (List.prefix_append _ _)
        rw [Location.fileName?_path hnamed, Location.parent?_path hnamed]
        simp only [ih habove (fun ys hys => h ys (hys.trans (List.prefix_append _ _)))
          (by simpa using hk), List.append_assoc]

/-- A name that cannot be followed is kept. -/
theorem resolveFrom_concat {name : String} (hnamed : Location.Named (l ++ [name]))
    (hl : t.locate l.path = .ok d) (hno : t.hasPath (Location.path (l ++ [name])) ≠ true)
    (hk : 1 ≤ k) : resolveFrom t k (Location.path (l ++ [name])) = .ok (d ++ [name]) := by
  refine resolveFrom_append hnamed hl (fun ys hys hpath => ?_) (by simpa using hk)
  rcases List.prefix_concat_iff.1 (show ys <+: [] ++ [name] from hys) with rfl | hnil
  · exact absurd hpath hno
  · rw [List.prefix_nil.1 hnil, List.append_nil, List.append_nil]
    exact hl

/-- The path of a place below a directory resolves below what the path of the directory leads to. -/
theorem resolveFrom_below (hl : t.locate l.path = .ok d) (hnamed : Location.Named (l ++ names))
    (hreached : t.Reached (d ++ names)) (hk : names.length ≤ k) :
    resolveFrom t k (Location.path (l ++ names)) = .ok (d ++ names) := by
  obtain ⟨-, n, hn, hd⟩ :=
    (locate_path_eq_ok_iff (hnamed.above (List.prefix_append _ _))).1 hl
  refine resolveFrom_append hnamed hl (fun ys hys hpath => ?_) hk
  have hle : ∀ x : Location, x ++ ys <+: x ++ names := fun x => (List.prefix_append_right_inj x).2 hys
  obtain ⟨m, hm⟩ := hasPath_iff.1 hpath
  obtain ⟨-, n', -, hleads⟩ := (locate_path_eq_ok_iff (hnamed.above (hle l))).1 hm
  obtain ⟨-, rfl⟩ := (hd.append (hreached.of_isPrefix (hle d)).leads_append).unique hleads
  exact hm

theorem named_of_validate {g : Guard} {p : Path} {r : Location} (h : g.validate t p = .ok r) :
    r.Named ∧ g.check r = .ok r := by
  obtain ⟨hres, hcheck⟩ := validate_eq_ok_iff.1 h
  exact ⟨named_of_resolveFrom hres (isAbsolute_spelling g p), hcheck⟩

end Guard

namespace Linker

variable {t : FileTree} {k : Linker} {p : Path}

/-- A source directory lies in the main directory of the application. -/
theorem sourceDirectory_eq {d : String} (hd : d ∈ Layout.sourceDirectories) :
    ∃ name, IsName name ∧ d = "/".intercalate ["app", "src", "main", name] := by
  simp only [Layout.sourceDirectories, List.mem_cons, List.not_mem_nil, or_false] at hd
  rcases hd with rfl | rfl
  · exact ⟨"java", by decide, rfl⟩
  · exact ⟨"kotlin", by decide, rfl⟩

theorem named_main : Location.Named ["app", "src", "main"] := by decide

theorem join_sourceDirectory {root : Location} {d : String} (hroot : root.Named)
    (hd : d ∈ Layout.sourceDirectories) : ∃ name, IsName name ∧
      root.path.join d = Location.path (root ++ ["app", "src", "main"] ++ [name]) ∧
      Location.Named (root ++ ["app", "src", "main"] ++ [name]) := by
  obtain ⟨name, hname, rfl⟩ := sourceDirectory_eq hd
  have hnames : Location.Named ["app", "src", "main", name] := named_main.concat hname
  refine ⟨name, hname, ?_, ?_⟩
  · rw [Location.path_join_intercalate hroot hnames (by simp), List.append_assoc]
    rfl
  · rw [List.append_assoc]
    exact hroot.append hnames

theorem findInSources_eq_some {root q : Path} {file : String}
    (h : Layout.findInSources t root file = some q) :
    ∃ d ∈ Layout.sourceDirectories, Layout.findBelow t (root.join d) file = some q :=
  List.exists_of_findSome?_eq_some h

theorem findSourceFile_eq_ok_iff {root q : Path} {className : String} {d : Dialect} :
    Layout.findSourceFile t root className d = .ok q ↔ Layout.ensureProject t root = .ok () ∧
      Layout.findInSources t root (className ++ "." ++ d.extension) = some q := by
  unfold Layout.findSourceFile
  cases Layout.ensureProject t root with
  | error cause => simp [bind, Except.bind]
  | ok _ =>
    simp only [bind, Except.bind, true_and]
    cases Layout.findInSources t root (className ++ "." ++ d.extension) with
    | none => simp
    | some p => simp [pure, Except.pure]

/-- What a search of the sources finds is the path of a place that resolves to a file, in a project
that has its main directory. -/
theorem resolve_of_findInSources {root : Location} {file : String} {q : Path} (ht : t.IsTree)
    (hroot : root.Named) (h : Layout.findInSources t root.path file = some q) :
    ∃ l r c, q = Location.path l ∧ l.Named ∧ Guard.resolve t q = .ok r ∧
      t.get? r = some (.file c) ∧
      ∃ m, t.locate (Location.path (root ++ ["app", "src", "main"])) = .ok m ∧
        t.get? m = some .directory := by
  obtain ⟨d, hd, hbelow⟩ := findInSources_eq_some h
  obtain ⟨name, hname, hjoin, hnamed⟩ := join_sourceDirectory hroot hd
  rw [hjoin] at hbelow
  obtain ⟨e, rest, c, he, hc, -, hrest, rfl⟩ := findBelow_eq_some ht hnamed hbelow
  have hl : Location.Named (root ++ ["app", "src", "main"] ++ [name] ++ rest) := hnamed.append hrest
  have hlen : rest.length ≤
      (Location.path (root ++ ["app", "src", "main"] ++ [name] ++ rest)).pieces.length := by
    rw [Location.pieces_path hl (by simp)]
    simp only [List.length_cons, List.length_map, List.length_append, List.length_nil]
    omega
  refine ⟨_, e ++ rest, c, rfl, hl, ?_, hc, ?_⟩
  · rw [Guard.resolve]
    exact Guard.resolveFrom_below he hl (ht.reached (holds_of_file hc)) hlen
  · obtain ⟨hallowed, n, hn, hleads⟩ := (locate_path_eq_ok_iff hnamed).1 he
    obtain ⟨i, j, m, hij, hm, hlast⟩ := hleads.split
    have hmain : root ++ ["app", "src", "main"] <+: root ++ ["app", "src", "main"] ++ [name] :=
      List.prefix_append _ _
    exact ⟨m, (locate_path_eq_ok_iff (hnamed.above hmain)).2
      ⟨hallowed.of_isPrefix (Location.path_text_ne _) (Location.path_prefix_path hmain), i, by omega,
        hm⟩, hlast.directory_of_cons⟩

theorem applicationFile_cases (h : k.applicationFile t = .ok p) :
    ∃ q r, Layout.findSourceFile t k.root Layout.applicationClass k.dialect = .ok q ∧
      k.guard.validate t q = .ok r ∧ p = Location.path r ∧ k.guard.root.Named := by
  unfold applicationFile at h
  cases hfind : Layout.findSourceFile t k.root Layout.applicationClass k.dialect with
  | error cause =>
    rw [hfind] at h
    nomatch h
  | ok q =>
    rw [hfind] at h
    change k.validate t q = .ok p at h
    unfold validate at h
    cases hvalidate : k.guard.validate t q with
    | error cause =>
      rw [hvalidate] at h
      nomatch h
    | ok r =>
      rw [hvalidate] at h
      obtain ⟨hnamed, hcheck⟩ := Guard.named_of_validate hvalidate
      exact ⟨q, r, rfl, hvalidate, (Except.ok.inj h).symm,
        hnamed.above (Guard.check_eq_ok_iff.1 hcheck).2.1⟩

/-- A path that is found for the application class and may be written is the path of a file. -/
theorem applicationFile_eq_ok (ht : t.IsTree) (h : k.applicationFile t = .ok p) :
    ∃ l c, p = Location.path l ∧ t.get? l = some (.file c) ∧ k.guard.check l = .ok l := by
  obtain ⟨q, r, hfind, hvalidate, rfl, hroot⟩ := applicationFile_cases h
  obtain ⟨l, m, c, rfl, -, hm, hc, -⟩ :=
    resolve_of_findInSources ht hroot (findSourceFile_eq_ok_iff.1 hfind).2
  obtain ⟨hres, hcheck⟩ := Guard.validate_eq_ok_iff.1 hvalidate
  rw [Guard.spelling_path] at hres
  obtain rfl := Except.ok.inj (hm.symm.trans hres)
  exact ⟨_, c, rfl, hc, hcheck⟩

end Linker

end AndroidFonts
