/-
# `AndroidFonts.Proofs.Tree.Contents` — trees that differ in what their files hold

Where a path leads depends on the directories and the links of a tree, not on what is in its files.
So trees that differ in the contents of files alone (`FileTree.Alike`) agree on every path
(`Alike.locate_eq`), and a file that is read in both reads differently only if it is one of those that
differ.

Applying an edit to a file that was just read goes from a tree to such a tree: the directories above
the file are there, and unless the name that is written to is a link the file that is replaced is the
one that was read (`FileEdit.apply_of_read`).  The one thing that can go wrong is that there is no
room for the name of a temporary file beside it.
-/
import AndroidFonts.Proofs.Tree.Making

namespace AndroidFonts

namespace FileTree

variable {t t' u : FileTree} {d l m : Location} {name : String} {names : List String} {p : Path}
  {s : String}

/-! ## Trees with the same places -/

/-- What differs between two trees is what some files hold. -/
structure Alike (t t' : FileTree) : Prop where
  current : t'.current = t.current
  get? : ∀ l, t'.get? l = t.get? l ∨
    (∃ c, t.get? l = some (.file c)) ∧ ∃ c, t'.get? l = some (.file c)

namespace Alike

theorem refl (t : FileTree) : Alike t t := ⟨rfl, fun _ => .inl rfl⟩

theorem trans (h : Alike t u) (h' : Alike u t') : Alike t t' := by
  refine ⟨h'.current.trans h.current, fun l => ?_⟩
  rcases h.get? l with heq | ⟨hfile, c, hc⟩
  · exact heq ▸ h'.get? l
  · refine .inr ⟨hfile, ?_⟩
    rcases h'.get? l with heq | ⟨-, hfile'⟩
    · exact ⟨c, heq.trans hc⟩
    · exact hfile'

theorem directory_iff (h : Alike t t') (l : Location) :
    t'.get? l = some .directory ↔ t.get? l = some .directory := by
  rcases h.get? l with heq | ⟨⟨c, hc⟩, c', hc'⟩
  · rw [heq]
  · rw [hc, hc']
    exact ⟨nofun, nofun⟩

theorem isTree (h : Alike t t') (ht : t.IsTree) : t'.IsTree := by
  have hthere : ∀ {l}, t'.get? l ≠ none → t.get? l ≠ none := by
    intro l hl
    rcases h.get? l with heq | ⟨⟨c, hc⟩, -⟩
    · exact heq ▸ hl
    · rw [hc]
      nofun
  exact ⟨fun l name hl => (h.directory_iff l).2 (ht.directory l name (hthere hl)),
    fun l name hl => ht.isName l name (hthere hl)⟩

theorem file_iff (h : Alike t t') (l : Location) :
    (∃ c, t'.get? l = some (.file c)) ↔ ∃ c, t.get? l = some (.file c) := by
  rcases h.get? l with heq | ⟨hfile, hfile'⟩
  · rw [heq]
  · exact iff_of_true hfile' hfile

theorem put {c : Contents} (hm : t.get? m = some (.file c)) (c' : Contents) :
    Alike t (t.put m (.file c')) := by
  refine ⟨rfl, fun l => ?_⟩
  have hne : m ≠ [] := by
    rintro rfl
    rw [t.get?_nil] at hm
    nomatch hm
  rw [get?_put t hne]
  split
  · rename_i heq
    exact .inr ⟨⟨c, heq ▸ hm⟩, c', rfl⟩
  · exact .inl rfl

theorem advance_eq (h : Alike t t') (l : Location) (names : List String) :
    t'.advance l names = t.advance l names := by
  induction names generalizing l with
  | nil => rfl
  | cons name rest ih =>
    have hdir : t'.get? l ≠ some .directory ↔ t.get? l ≠ some .directory :=
      not_congr (h.directory_iff l)
    simp only [advance, hdir, ih]
    rcases h.get? (l ++ [name]) with heq | ⟨⟨c, hc⟩, c', hc'⟩
    · rw [heq]
    · rw [hc, hc']

theorem follow_eq (h : Alike t t') (k : Nat) (l : Location) (names : List String) :
    t'.follow k l names = t.follow k l names := by
  induction k generalizing l names with
  | zero => rw [follow, follow, h.advance_eq]
  | succ k ih =>
    rw [follow, follow, h.advance_eq]
    simp only [ih]

theorem startOf_eq (h : Alike t t') (p : Path) : t'.startOf p = t.startOf p := by
  rw [startOf, startOf, h.current]

theorem resolve_eq (h : Alike t t') (p : Path) : t'.resolve p = t.resolve p := by
  rw [resolve, resolve, h.startOf_eq, h.follow_eq]

theorem locate_eq (h : Alike t t') (p : Path) : t'.locate p = t.locate p := by
  rw [locate, locate, h.resolve_eq]

/-- What a path leads to reads the same unless it is one of the files that differ. -/
theorem readText_eq (h : Alike t t') (hp : ∀ m, t.locate p = .ok m → t'.get? m = t.get? m) :
    t'.readText p = t.readText p := by
  rw [readText, readText, h.locate_eq]
  cases hm : t.locate p with
  | error cause => rfl
  | ok m => rw [ok_bind, ok_bind, hp m hm]

theorem entryOf_eq (h : Alike t t') (p : Path) : t'.entryOf p = t.entryOf p := by
  have hdir : ∀ l, (t'.get? l ≠ some .directory) = (t.get? l ≠ some .directory) :=
    fun l => propext (not_congr (h.directory_iff l))
  unfold entryOf
  simp only [h.startOf_eq, h.follow_eq, hdir]

end Alike

/-! ## Replacing a file that was read -/

/-- Whether the last name of a path is that of a symbolic link. -/
def namesLink (t : FileTree) (p : Path) : Bool :=
  match t.entryOf p with
  | .ok (d, some name) =>
    match t.get? (d ++ [name]) with
    | some (.link _) => true
    | _ => false
  | _ => false

theorem namesLink_of_link {target : Path} (hentry : t.entryOf p = .ok (d, some name))
    (hlink : t.get? (d ++ [name]) = some (.link target)) : t.namesLink p = true := by
  rw [namesLink, hentry]
  simp only [hlink]

/-- The path of a file does not name a link. -/
theorem namesLink_of_file {c : Contents} (ht : t.IsTree) (hl : t.get? l = some (.file c)) :
    t.namesLink l.path = false := by
  have hreached := ht.reached (holds_of_file hl)
  obtain ⟨d, name, rfl⟩ := (List.eq_nil_or_concat' l).resolve_left fun hnil => by
    rw [hnil, t.get?_nil] at hl
    cases hl
  unfold namesLink
  rcases hentry : t.entryOf (Location.path (d ++ [name])) with cause | ⟨m, _ | last⟩
  · rfl
  · rfl
  · obtain ⟨rfl, n, -, hleads⟩ := (entryOf_eq_ok hentry).leads_path hreached.named
    obtain ⟨-, rfl⟩ := (hreached.of_isPrefix (List.prefix_append _ _)).leads.unique hleads
    simp only [hl]

theorem Alike.namesLink_eq (h : Alike t t') (p : Path) : t'.namesLink p = t.namesLink p := by
  rw [namesLink, namesLink, h.entryOf_eq]
  rcases t.entryOf p with cause | ⟨d, _ | name⟩
  · rfl
  · rfl
  · rcases h.get? (d ++ [name]) with heq | ⟨⟨c, hc⟩, c', hc'⟩
    · simp only [heq]
    · simp only [hc, hc']

/-- A file that is read under a name that is no link stands under that name in the directory that the
names before it lead to. -/
theorem entry_of_readText (hnamed : Location.Named (d ++ [name]))
    (hread : t.readText (Location.path (d ++ [name])) = .ok s)
    (hlink : t.namesLink (Location.path (d ++ [name])) = false) :
    Allowed (Location.path (d ++ [name])) ∧ ∃ m, ∃ n ≤ maxLinks, Leads t n [] d m ∧
      t.get? m = some .directory ∧ Text.byteLength name.toList ≤ maxName ∧
      t.locate (Location.path (d ++ [name])) = .ok (m ++ [name]) ∧
      t.get? (m ++ [name]) = some (.file (.text s)) := by
  obtain ⟨r, hlocate, hfile⟩ := readText_eq_ok_iff.1 hread
  obtain ⟨hallowed, n, hn, hleads⟩ := (locate_path_eq_ok_iff hnamed).1 hlocate
  obtain ⟨i, j, m, rfl, hd, hlast⟩ := hleads.split
  have hi : i ≤ maxLinks := (Nat.le_add_right i j).trans hn
  obtain ⟨hdir, hlen, ⟨-, rfl, -⟩ | ⟨target, hlinked⟩⟩ := hlast.singleton_cases (hnamed name (by simp))
  · exact ⟨hallowed, m, i, hi, hd, hdir, hlen, hlocate, hfile⟩
  · rw [namesLink_of_link (entryOf_path_of_leads hnamed hallowed hlen hi hd hdir) hlinked] at hlink
    nomatch hlink

theorem makeDirectories_of_isDirectory (hnamed : d.Named) (h : t.isDirectory d.path = true) :
    t.makeDirectories d.path = (.ok (), t) := by
  have hmake : t.makeDirectory d.path = .error .alreadyExists := by
    rcases List.eq_nil_or_concat' d with rfl | ⟨e, name, rfl⟩
    · exact t.makeDirectory_path_nil
    obtain ⟨m, hlocate, hdir⟩ := isDirectory_iff.1 h
    obtain ⟨hallowed, n, hn, hleads⟩ := (locate_path_eq_ok_iff hnamed).1 hlocate
    obtain ⟨i, j, c, rfl, he, hlast⟩ := hleads.split
    obtain ⟨hcdir, hlen, hthere⟩ := hlast.singleton_cases (hnamed name (by simp))
    have hsome : (t.get? (c ++ [name])).isSome = true := by
      rcases hthere with ⟨-, -, node, hnode, -⟩ | ⟨target, hlinked⟩
      · rw [hnode]
        rfl
      · rw [hlinked]
        rfl
    unfold makeDirectory
    rw [entryOf_path_of_leads hnamed hallowed hlen ((Nat.le_add_right i j).trans hn) he
      hcdir, ok_bind]
    simp only [hsome, if_true]
    rfl
  obtain ⟨k, hk⟩ := Nat.exists_eq_succ_of_ne_zero
    (Nat.ne_of_gt (Nat.zero_lt_of_lt (FileEdit.length_lt_pieces_path hnamed)))
  rw [makeDirectories, hk, makeDirectories.go, if_neg d.path_text_ne, hmake]
  simp only [h, if_true]

end FileTree

open FileTree

namespace FileEdit

variable {t : FileTree} {e : FileEdit} {l : Location} {found : String}

/-- An edit of a file that was just read replaces that file, if there is room for a temporary name
beside it. -/
theorem apply_of_read (hnamed : l.Named) (he : e.file = l.path) (hbefore : e.before = some found)
    (hnoop : e.isNoop = false) (hread : t.readText l.path = .ok found)
    (hlink : t.namesLink l.path = false) :
    ∃ m, t.locate l.path = .ok m ∧ t.get? m = some (.file (.text found)) ∧
      e.apply t =
        if ((Location.path l.dropLast).join temporaryName).isTooLong then
          (.error (.io l.path (.temporaryFile .nameTooLong)), t)
        else (.ok (.applied (Text.byteLength e.after.toList)),
          t.put m (.file (.text e.after))) := by
  rcases List.eq_nil_or_concat' l with rfl | ⟨d, name, rfl⟩
  · obtain ⟨m, hm, hfile⟩ := readText_eq_ok_iff.1 hread
    obtain rfl := Except.ok.inj (t.locate_path_nil.symm.trans hm)
    rw [t.get?_nil] at hfile
    cases hfile
  obtain ⟨hallowed, m, n, hn, hleads, hdir, hlen, hlocate, hfile⟩ :=
    entry_of_readText hnamed hread hlink
  have hdl : d <+: d ++ [name] := List.prefix_append _ _
  have hparent : t.isDirectory (Location.path d) = true :=
    isDirectory_iff.2 ⟨m, (locate_path_eq_ok_iff (hnamed.above hdl)).2
      ⟨hallowed.of_isPrefix (Location.path_text_ne d) (Location.path_prefix_path hdl), n, hn,
        hleads⟩, hdir⟩
  have happly : e.apply t = e.install t :=
    apply_of_current (currentText_eq_ok_iff.2 (.inl ⟨found, he ▸ hread, hbefore⟩)) hnoop
  refine ⟨m ++ [name], hlocate, hfile, ?_⟩
  rw [happly, List.dropLast_concat]
  simp only [install, makeParents, write, he, Location.parent?_path hnamed,
    makeDirectories_of_isDirectory (hnamed.above hdl) hparent,
    replaceFile_path_of_leads hnamed hallowed hlen hn hleads hdir (by simp [hfile])]
  by_cases hroom : ((Location.path d).join temporaryName).isTooLong = true
  · simp only [hroom, if_true]
  · simp only [hroom, Bool.false_eq_true, if_false]

end FileEdit

end AndroidFonts
