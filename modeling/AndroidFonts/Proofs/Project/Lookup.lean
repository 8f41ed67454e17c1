/-
# `AndroidFonts.Proofs.Project.Lookup` — which source file of a name is found

Of several files of one name, the walk below a source directory finds the one that comes first if the
ways to them are compared name by name, and each name byte by byte (`Location.Before`).  This is not the
order of the paths as texts: a name that another name begins with comes before it, whatever its
next byte is compared with a slash.

The walk takes up the names of a directory in order, so the first name under which it finds something is
the least name under which there is something, and below that name the same holds
(`find?_filesBelow_least`).  What it finds lies in the directory that the path of the source
directory leads to, links followed; below it there are directories alone on the way (`SourceAt`).
-/
import AndroidFonts.Project.Layout
import AndroidFonts.Proofs.Text.Order
import AndroidFonts.Proofs.Tree.Walk

namespace AndroidFonts

open Text

/-! ## The order of a walk -/

namespace Location

variable {names other : Location} {name name' : String}

/-- Whether the names of one way come before those of another, compared name by name in the order of
their bytes. -/
def Before (names other : Location) : Prop := names.map bytesOf < other.map bytesOf

instance (names other : Location) : Decidable (Before names other) :=
  inferInstanceAs (Decidable (_ < _))

theorem before_of_lt (h : name < name') : Before (name :: names) (name' :: other) :=
  List.cons_lt_cons_iff.2 (.inl (bytesOf_lt_iff.2 h))

theorem Before.cons (h : Before names other) (name : String) :
    Before (name :: names) (name :: other) :=
  List.cons_lt_cons_iff.2 (.inr ⟨rfl, h⟩)

end Location

namespace FileTree

variable {t : FileTree} {l names other : Location} {name : String} {depth : Nat}
  {p : Location → Bool}

theorem exists_of_mem_filesUnder (h : names ∈ t.filesUnder depth l name) :
    ∃ rest, names = name :: rest := by
  unfold filesUnder at h
  split at h
  · exact ⟨[], List.mem_singleton.1 h⟩
  · obtain ⟨rest, -, rfl⟩ := List.mem_map.1 h
    exact ⟨rest, rfl⟩
  · nomatch h

/-- What a walk finds first comes before everything else that is searched for. -/
theorem find?_filesBelow_least (hfind : (t.filesBelow depth l).find? p = some names)
    (hother : other ∈ t.filesBelow depth l) (hp : p other = true) :
    other = names ∨ names.Before other := by
  induction depth generalizing l p names other with
  | zero => nomatch hother
  | succ depth ih =>
    rw [filesBelow_succ] at hfind hother
    rw [List.find?_flatMap] at hfind
    obtain ⟨name, -, hname, hleast⟩ := exists_least_of_findSome? (pairwise_namesIn t l) hfind
    obtain ⟨name', hname', hunder⟩ := List.mem_flatMap.1 hother
    have hle : name ≤ name' := hleast name' hname' fun hnone =>
      List.find?_eq_none.1 hnone other hunder hp
    by_cases heq : name = name'
    · obtain rfl := heq
      unfold filesUnder at hname hunder
      split at hunder
      · rename_i c hc
        simp only [hc] at hname
        obtain rfl := List.mem_singleton.1 hunder
        exact .inl (List.mem_singleton.1 (List.mem_of_find?_eq_some hname)).symm
      · rename_i hdirectory
        simp only [hdirectory, List.find?_map] at hname
        obtain ⟨rest', hrest', rfl⟩ := List.mem_map.1 hunder
        obtain ⟨rest, hrest, rfl⟩ := Option.map_eq_some_iff.1 hname
        exact (ih hrest hrest' hp).imp (congrArg _) fun h => h.cons name
      · nomatch hunder
    · obtain ⟨rest, rfl⟩ := exists_of_mem_filesUnder (List.mem_of_find?_eq_some hname)
      obtain ⟨rest', rfl⟩ := exists_of_mem_filesUnder hunder
      refine .inr (Location.before_of_lt ?_)
      refine Decidable.byContradiction fun hlt => heq ?_
      exact String.le_antisymm hle (String.not_lt.1 hlt)

end FileTree

/-! ## Paths below a directory -/

namespace Path

variable {p : Path} {q name : String} {names : Location}

/-- Whether a path takes a name after a slash: it is not empty and does not end in a slash itself. -/
def Extensible (p : Path) : Prop := p.text.toList ≠ [] ∧ p.text.toList.getLast? ≠ some '/'

instance (p : Path) : Decidable p.Extensible := inferInstanceAs (Decidable (_ ∧ _))

theorem extensible_join (hq : (Path.mk q).Extensible) : (p.join q).Extensible := by
  have hlast : ∀ front : String, (Path.mk (front ++ q)).Extensible := by
    intro front
    have hne : q.toList ≠ [] := hq.1
    unfold Extensible
    rw [String.toList_append, List.getLast?_append_of_ne_nil _ hne]
    exact ⟨List.append_ne_nil_of_right_ne_nil _ hne, hq.2⟩
  unfold join
  split
  · exact hq
  split
  · exact hlast _
  · exact hlast _

theorem text_join (hp : p.Extensible) (hname : IsName name) :
    (p.join name).text = p.text ++ "/" ++ name := by
  have hrelative : (Path.mk name).isAbsolute = false := by
    unfold isAbsolute
    refine decide_eq_false fun h => hname.1.2 ?_
    exact List.mem_of_mem_head? h
  unfold join
  rw [hrelative, Bool.false_or, if_neg (by simpa using hp.1), if_neg hp.2]

theorem extensible_of_isName (hname : IsName name) : (Path.mk name).Extensible :=
  ⟨fun h => hname.1.1 (String.toList_eq_nil_iff.1 h), fun h => hname.1.2 (List.mem_of_getLast? h)⟩

/-- Names that are joined to a path one by one stand behind it with slashes between them. -/
theorem text_foldl_join (hp : p.Extensible) (hnames : names.Named) (hne : names ≠ []) :
    (names.foldl join p).text = p.text ++ "/" ++ "/".intercalate names := by
  induction names generalizing p with
  | nil => exact absurd rfl hne
  | cons name names ih =>
    have hname := hnames name List.mem_cons_self
    rw [List.foldl_cons]
    by_cases hnil : names = []
    · subst hnil
      exact text_join hp hname
    · rw [ih (extensible_join (extensible_of_isName hname))
        (fun s hs => hnames s (List.mem_cons_of_mem _ hs)) hnil, text_join hp hname,
        String.intercalate_cons_of_ne_nil hnil]
      simp only [String.append_assoc]

end Path

/-! ## The source file of a class -/

namespace Layout

variable {t : FileTree} {directory root : Path} {file : String} {names : Location}

/-- Whether names lead from a source directory to a source file.  The source directory may be reached
through links; on the way from there to the regular file are directories alone. -/
def SourceAt (t : FileTree) (directory : Path) (file : String) (names : Location) : Prop :=
  ∃ l c, t.locate directory = .ok l ∧
    (∀ above, above <+: names → above ≠ names → t.get? (l ++ above) = some .directory) ∧
    t.get? (l ++ names) = some (.file c) ∧ names.getLast? = some file

/-- Whether a source file comes before all others of its name. -/
structure FirstSourceAt (t : FileTree) (directory : Path) (file : String) (names : Location) :
    Prop where
  sourceAt : SourceAt t directory file names
  least : ∀ other, SourceAt t directory file other → other = names ∨ names.Before other

theorem sourceAt_iff (ht : t.IsTree) {l : Location} (hl : t.locate directory = .ok l) :
    SourceAt t directory file names ↔ names ∈ t.walk l ∧ names.getLast? = some file := by
  rw [FileTree.mem_walk_iff ht]
  constructor
  · rintro ⟨l', c, hl', -, hc, hlast⟩
    obtain rfl := Except.ok.inj (hl.symm.trans hl')
    refine ⟨⟨?_, c, hc⟩, hlast⟩
    rintro rfl
    nomatch hlast
  · rintro ⟨⟨-, c, hc⟩, hlast⟩
    refine ⟨l, c, hl, fun above habove hne => ?_, hc, hlast⟩
    exact ht.above (by rw [hc]; nofun) ((List.prefix_append_right_inj l).2 habove)
      fun heq => hne (List.append_cancel_left heq)

theorem findBelow_of_directory {l : Location} (hl : t.locate directory = .ok l)
    (hdirectory : t.get? l = some .directory) :
    findBelow t directory file = ((t.walk l).find? fun names => names.getLast? = some file).map
      fun names => names.foldl Path.join directory := by
  unfold findBelow
  rw [hl]
  exact if_pos hdirectory

theorem SourceAt.named (ht : t.IsTree) (h : SourceAt t directory file names) :
    Location.Named names ∧ names ≠ [] := by
  obtain ⟨l, c, -, -, hc, hlast⟩ := h
  refine ⟨fun s hs => (ht.named (by rw [hc]; nofun) s (List.mem_append_right _ hs)).1, ?_⟩
  rintro rfl
  nomatch hlast

/-- A search below a source directory finds the first source file, if there is one, and its path is that
of the directory with the names behind it. -/
theorem findBelow_of_sourceAt (ht : t.IsTree) (hextensible : directory.Extensible)
    (h : ∃ names, SourceAt t directory file names) :
    ∃ first, FirstSourceAt t directory file first ∧
      findBelow t directory file = some ⟨directory.text ++ "/" ++ "/".intercalate first⟩ := by
  obtain ⟨names, hnames⟩ := h
  obtain ⟨l, c, hl, habove, -, hlast⟩ := id hnames
  have hdirectory : t.get? l = some .directory := by
    have := habove [] List.nil_prefix (Ne.symm (hnames.named ht).2)
    rwa [List.append_nil] at this
  obtain ⟨hmem, -⟩ := (sourceAt_iff ht hl).1 hnames
  rw [findBelow_of_directory hl hdirectory]
  cases hfind : (t.walk l).find? fun names => names.getLast? = some file with
  | none => exact absurd (decide_eq_true hlast) (List.find?_eq_none.1 hfind names hmem)
  | some first =>
    have hfirst : SourceAt t directory file first :=
      (sourceAt_iff ht hl).2 ⟨List.mem_of_find?_eq_some hfind, by simpa using List.find?_some hfind⟩
    obtain ⟨hnamed, hne⟩ := hfirst.named ht
    refine ⟨first, ⟨hfirst, fun other hother => ?_⟩, ?_⟩
    · obtain ⟨hwalk, hlast'⟩ := (sourceAt_iff ht hl).1 hother
      exact FileTree.find?_filesBelow_least hfind hwalk (decide_eq_true hlast')
    · rw [← Path.text_foldl_join hextensible hnamed hne]
      rfl

theorem findBelow_eq_none (ht : t.IsTree) (h : ¬ ∃ names, SourceAt t directory file names) :
    findBelow t directory file = none := by
  unfold findBelow
  cases hl : t.locate directory with
  | error cause => rfl
  | ok l =>
    refine ite_eq_right_iff.2 fun _ => ?_
    rw [List.find?_eq_none.2 fun names hnames hlast => h ⟨names, ?_⟩]
    · rfl
    · exact (sourceAt_iff ht hl).2 ⟨hnames, of_decide_eq_true hlast⟩

theorem findInSources_eq (t : FileTree) (root : Path) (file : String) :
    findInSources t root file =
      (findBelow t (root.join "app/src/main/java") file).or
        (findBelow t (root.join "app/src/main/kotlin") file) := by
  unfold findInSources sourceDirectories
  cases hjava : findBelow t (root.join "app/src/main/java") file with
  | some p => simp only [List.findSome?_cons, hjava, Option.some_or]
  | none =>
    cases hkotlin : findBelow t (root.join "app/src/main/kotlin") file with
    | some p => simp only [List.findSome?_cons, hjava, hkotlin, Option.none_or]
    | none => simp only [List.findSome?_cons, hjava, hkotlin, List.findSome?_nil, Option.none_or]

theorem findSourceFile_eq (hproject : t.isDirectory (root.join "app/src/main") = true)
    (className : String) (d : Dialect) : findSourceFile t root className d =
      match findInSources t root (className ++ "." ++ d.extension) with
      | some p => .ok p
      | none => .error (.sourceNotFound (className ++ "." ++ d.extension) root) := by
  unfold findSourceFile ensureProject
  rw [if_pos hproject]
  rfl

/-- A project whose first source directory is a link.  Behind it are a directory with the name of the
file, a link to a directory, a link to a file, and two files of the name. -/
def linkedSources : FileTree where
  nodes := [(["p"], .directory), (["p", "app"], .directory), (["p", "app", "src"], .directory),
    (["p", "app", "src", "main"], .directory), (["p", "app", "src", "main", "java"], .link ⟨"/s"⟩),
    (["s"], .directory), (["s", "A.java"], .directory), (["s", "0"], .link ⟨"a-b"⟩),
    (["s", "a-b"], .directory), (["s", "a-b", "A.java"], .file (.text "")),
    (["s", "a"], .directory), (["s", "a", "A.java"], .link ⟨"../a-b/A.java"⟩),
    (["s", "a", "c"], .directory), (["s", "a", "c", "A.java"], .file (.text ""))]
  current := []

theorem sourceAt_linkedSources
    (h : SourceAt linkedSources ⟨"/p/app/src/main/java"⟩ "A.java" names) :
    names = ["a-b", "A.java"] ∨ names = ["a", "c", "A.java"] := by
  have hfiles : ∀ x ∈ linkedSources.nodes, (x.2 matches .file _) = true →
      x.1 = ["s", "a-b", "A.java"] ∨ x.1 = ["s", "a", "c", "A.java"] := by decide +kernel
  obtain ⟨l, c, hl, -, hc, -⟩ := h
  obtain rfl : ["s"] = l := Except.ok.inj (Eq.trans (by decide +kernel) hl)
  obtain ⟨_, _, hsplit, -⟩ := List.lookup_eq_some_iff.1 hc
  have hmem : (["s"] ++ names, FileNode.file c) ∈ linkedSources.nodes := hsplit ▸ by simp
  exact (hfiles _ hmem rfl).imp List.append_cancel_left List.append_cancel_left

end Layout

end AndroidFonts
