/-
# `AndroidFonts.Proofs.Tree.Replacing` — an edit compares a file and replaces it

Applying an edit reads what is at its path, makes the directories that are missing above it, and then
puts the new text in at the end of the path (`FileEdit.install_applied`).  Whatever the path looks
like, no other file is changed, and none at all unless the edit was applied.

What was compared is what is replaced if the path still reads the same once the directories are made.
A text that was read is still read then, since making directories takes nothing away
(`MoreDirectories.readText`).  Where nothing was found the same goes for a path without `..`: below a
directory that was just made there is nothing (`makeDirectories_go_missing`).  But a path can go down
into a missing directory and up again, and then it leads nowhere when it is compared and somewhere
when it is written to: to a file that nobody compared, or through a link that the file is put in the
place of, after which the path does not lead to the file.
-/
import AndroidFonts.Proofs.Tree.Ways

namespace AndroidFonts

namespace FileTree

variable {t t' u : FileTree} {k n : Nat} {d l m : Location} {name : String} {names rest : List String}
  {p q : Path}

/-! ## Where nothing is below a new directory -/

/-- Names that are not all dots lead nowhere in a directory that has no entries. -/
theorem follow_of_empty (hdir : t.get? l = some .directory) (hnone : ∀ s, t.get? (l ++ [s]) = none)
    (hdots : ".." ∉ names) (hshort : ∀ s ∈ names, Text.byteLength s.toList ≤ maxName)
    (hname : ∃ s ∈ names, s ≠ ".") : t.follow k l names = .error .notFound := by
  induction names with
  | nil =>
    obtain ⟨s, hs, -⟩ := hname
    nomatch hs
  | cons first rest ih =>
    obtain ⟨hfirst, hrest⟩ := List.forall_mem_cons.1 hshort
    have hup : first ≠ ".." := fun heq => hdots (heq ▸ List.mem_cons_self)
    by_cases hdot : first = "."
    · subst hdot
      obtain ⟨s, hs, hne⟩ := hname
      rw [follow_stay hdir]
      exact ih (fun hmem => hdots (List.mem_cons_of_mem _ hmem)) hrest
        ⟨s, (List.mem_cons.1 hs).resolve_left hne, hne⟩
    · exact follow_cons_of_missing hdir hdot hup hfirst (hnone first)

namespace EntryAt

/-- The way on to what stands at an entry. -/
theorem leads_names (h : t.EntryAt p d name) (hholds : t.Holds (d ++ [name])) :
    ∃ n ≤ maxLinks, Leads t n (t.startOf p) (Path.namesOf p.pieces) (d ++ [name]) := by
  obtain ⟨before, hnames, n, hn, hleads⟩ := h.leads
  obtain ⟨node, hnode, hlink⟩ := hholds
  rw [hnames]
  exact ⟨n, hn, hleads.append (.down h.directory h.isName.2.1 h.isName.2.2 h.short hnode hlink .here)⟩

theorem short_names (h : t.EntryAt p d name) :
    ∀ s ∈ Path.namesOf p.pieces, Text.byteLength s.toList ≤ maxName := by
  obtain ⟨before, hnames, n, -, hleads⟩ := h.leads
  rw [hnames]
  exact List.forall_mem_append.2 ⟨hleads.short, List.forall_mem_singleton.2 h.short⟩

theorem of_moreDirectories (h : MoreDirectories t t') (hentry : t.EntryAt p d name) :
    t'.EntryAt p d name where
  allowed := hentry.allowed
  isName := hentry.isName
  short := hentry.short
  directory := (h.get?_of_ne_none (by rw [hentry.directory]; nofun)).trans hentry.directory
  leads := by
    obtain ⟨before, hnames, n, hn, hleads⟩ := hentry.leads
    exact ⟨before, hnames, n, hn, h.startOf p ▸ h.leads hleads⟩

end EntryAt

/-- Once a directory has been made on the way of a path, the path leads nowhere. -/
theorem makeDirectory_missing (ht : t.IsTree) (hstart : q.isAbsolute = p.isAbsolute)
    (hnames : Path.namesOf p.pieces = Path.namesOf q.pieces ++ rest)
    (hrest : ∃ s ∈ rest, s ≠ ".") (hdots : ".." ∉ Path.namesOf p.pieces)
    (hshort : ∀ s ∈ Path.namesOf p.pieces, Text.byteLength s.toList ≤ maxName)
    (h : t.makeDirectory q = .ok t') :
    t'.follow maxLinks (t'.startOf p) (Path.namesOf p.pieces) = .error .notFound := by
  have hmore := makeDirectory_moreDirectories ht h
  obtain ⟨d, name, hentry, hnone, rfl⟩ := makeDirectory_eq_ok h
  have hdir : (t.put (d ++ [name]) .directory).get? (d ++ [name]) = some .directory := by
    rw [get?_put t (by simp), if_pos rfl]
  obtain ⟨n, hn, hleads⟩ :=
    (hentry.of_moreDirectories hmore).leads_names (holds_of_directory hdir)
  have hstart' : (t.put (d ++ [name]) .directory).startOf q =
      (t.put (d ++ [name]) .directory).startOf p := by
    rw [startOf, startOf, hstart]
  rw [hstart'] at hleads
  rw [hnames] at hdots hshort ⊢
  rw [hleads.follow_append rest hn]
  refine follow_of_empty hdir (fun s => ?_) (fun hmem => hdots (List.mem_append_right _ hmem))
    (List.forall_mem_append.1 hshort).2 hrest
  rw [get?_put t (by simp), if_neg (by simp)]
  exact ht.below (d := d ++ [name]) (by simp [hnone]) (List.prefix_append _ _) (by simp)

/-- Making the directories above a path without `..` does nothing, or leaves the path leading
nowhere. -/
theorem makeDirectories_go_missing (ht : t.IsTree) (hdots : ".." ∉ Path.namesOf p.pieces)
    (hshort : ∀ s ∈ Path.namesOf p.pieces, Text.byteLength s.toList ≤ maxName)
    (hstart : q.isAbsolute = p.isAbsolute)
    (hnames : Path.namesOf p.pieces = Path.namesOf q.pieces ++ rest)
    (hrest : ∃ s ∈ rest, s ≠ ".") (h : makeDirectories.go k t q = (.ok (), u)) :
    u = t ∨ u.follow maxLinks (u.startOf p) (Path.namesOf p.pieces) = .error .notFound := by
  -- on the way up the names that are taken off `q` go to `rest`
  induction k generalizing q rest u with
  | zero => exact .inl (Prod.mk.inj h).2.symm
  | succ k ih =>
    rcases makeDirectories_go_eq_ok h with ⟨-, rfl⟩ | hmake | ⟨above, v, -, hparent, hgo, hlast⟩
    · exact .inl rfl
    · exact .inr (makeDirectory_missing ht hstart hnames hrest hdots hshort hmake)
    · have hdots' : ".." ∉ Path.namesOf q.pieces := fun hmem =>
        hdots (hnames ▸ List.mem_append_left _ hmem)
      obtain ⟨hstart', more, hmore, s, hs, hne⟩ := Path.names_of_parent? hparent hdots'
      have hmade := makeDirectories_go_moreDirectories k ht above
      rw [hgo] at hmade
      rcases hlast with hlast | ⟨-, rfl⟩
      · exact .inr (makeDirectory_missing hmade.isTree hstart hnames hrest hdots hshort hlast)
      · exact ih (hstart'.trans hstart) (by rw [hnames, hmore, List.append_assoc])
          ⟨s, List.mem_append_left rest hs, hne⟩ hgo

/-- A file put in at an entry is what the path leads to, if a text was read under the path or nothing
was found. -/
theorem EntryAt.locate_put (h : t.EntryAt p d name) (hslash : p.text.toList.getLast? ≠ some '/')
    (hnot : t.get? (d ++ [name]) ≠ some .directory)
    (hread : (∃ s, t.readText p = .ok s) ∨ t.readText p = .error .notFound) (c : Contents) :
    (t.put (d ++ [name]) (.file c)).locate p = .ok (d ++ [name]) := by
  have hput : ∀ l, l ≠ d ++ [name] → (t.put (d ++ [name]) (.file c)).get? l = t.get? l :=
    fun l hl => by rw [get?_put t (by simp), if_neg hl]
  have hfile : (t.put (d ++ [name]) (.file c)).get? (d ++ [name]) = some (.file c) := by
    rw [get?_put t (by simp), if_pos rfl]
  have hsteps := Path.steps_eq_namesOf hslash
  obtain ⟨before, hnames, n, hn, hleads⟩ := h.leads
  rcases hleads.replaced hnot (fun _ => holds_of_file hfile) hput with
    hkept | ⟨i, j, r, rest, -, hlast, hon⟩
  · have hdir : (t.put (d ++ [name]) (.file c)).get? d = some .directory := by
      rw [hput d (by simp), h.directory]
    refine locate_eq_ok_iff.2 ⟨h.allowed, n, hn, ?_⟩
    rw [hsteps, hnames]
    exact hkept.append (.down hdir h.isName.2.1 h.isName.2.2 h.short hfile nofun .here)
  -- the way goes on through a link under the last name, so the path leads to a directory
  · have hway : Leads t (n + i) (t.startOf p) p.steps r := by
      rw [hsteps, hnames]
      exact hleads.append hlast
    exact absurd (hon.directory_of_rest h.directory)
      (not_directory_of_read h.allowed.2.2 hread hway)

end FileTree

open FileTree

namespace FileEdit

variable {t t' u : FileTree} {e : FileEdit} {p : Path} {d : Location} {name : String}

/-! ## What is compared -/

/-- Where nothing was found under a path without `..`, nothing is found after the directories above
it have been made. -/
theorem currentText_makeParents (ht : t.IsTree) (hdots : ".." ∉ p.steps)
    (hmake : makeParents t p = (.ok (), u)) (hentry : u.EntryAt p d name)
    (h : currentText t p = .ok none) : currentText u p = .ok none := by
  have hdots' : ".." ∉ Path.namesOf p.pieces := fun hmem =>
    hdots (Path.steps_eq p ▸ List.mem_append_left _ hmem)
  unfold makeParents at hmake
  cases hparent : p.parent? with
  | none =>
    rw [hparent] at hmake
    obtain rfl := (Prod.mk.inj hmake).2
    exact h
  | some q =>
    rw [hparent] at hmake
    rcases hgo : t.makeDirectories q with ⟨cause | _, v⟩
    · simp only [hgo] at hmake
      nomatch hmake
    · simp only [hgo] at hmake
      obtain rfl := (Prod.mk.inj hmake).2
      obtain ⟨hstart, rest, hnames, hrest⟩ := Path.names_of_parent? hparent hdots'
      rcases makeDirectories_go_missing ht hdots' hentry.short_names hstart hnames hrest hgo with
        rfl | hnowhere
      · exact h
      · have hlocate : v.locate p = .error .notFound := by
          rw [hentry.allowed.locate, Path.steps_eq]
          exact follow_append_of_error hnowhere _
        rw [currentText, readText, hlocate]
        rfl

/-! ## What is replaced -/

/-- A file at the entry is the one that is read under the path. -/
theorem eq_of_file {x : Option String} {c : Contents} (hentry : u.EntryAt p d name)
    (hslash : p.text.toList.getLast? ≠ some '/') (hread : currentText u p = .ok x)
    (hc : u.get? (d ++ [name]) = some (.file c)) : ∃ s, x = some s ∧ c = .text s := by
  obtain ⟨n, hn, hleads⟩ := hentry.leads_names (holds_of_file hc)
  have hlocate : u.locate p = .ok (d ++ [name]) := by
    refine locate_eq_ok_iff.2 ⟨hentry.allowed, n, hn, ?_⟩
    rwa [Path.steps_eq_namesOf hslash]
  cases c with
  | text s =>
    rw [currentText_eq_some_iff.2 (readText_eq_ok_iff.2 ⟨_, hlocate, hc⟩)] at hread
    exact ⟨s, (Except.ok.inj hread).symm, rfl⟩
  | binary bytes =>
    rw [currentText, readText, hlocate, ok_bind] at hread
    simp only [hc] at hread
    cases hread

theorem apply_of_readText (h : t.readText e.file = .ok e.after) :
    e.apply t = (.ok .alreadyApplied, t) := by
  unfold apply
  rw [currentText_eq_some_iff.2 h]
  simp

/-- Once the directories are made, the path still reads what was compared, unless it holds `..` and
nothing was expected. -/
theorem currentText_of_compared (ht : t.IsTree) (hmake : makeParents t e.file = (.ok (), u))
    (hentry : u.EntryAt e.file d name) (h : currentText t e.file = .ok e.before)
    (hsteady : e.before ≠ none ∨ ".." ∉ e.file.steps ∨ currentText u e.file = .ok none) :
    currentText u e.file = .ok e.before := by
  have hmore := makeParents_moreDirectories ht e.file
  rw [hmake] at hmore
  rcases currentText_eq_ok_iff.1 h with ⟨s, hs, hbefore⟩ | ⟨-, hbefore⟩
  · rw [hbefore]
    exact currentText_eq_some_iff.2 (hmore.readText hs)
  · rw [hbefore] at h hsteady ⊢
    rcases hsteady with hne | hdots | hnone
    · exact absurd rfl hne
    · exact currentText_makeParents ht hdots hmake hentry h
    · exact hnone

/-- Applying an edit.

- It is applied only if its file read what it expects; the text is then at the end of the path, and no
  other file is changed.  If the path still reads the same once its directories are made, as it does
  unless it holds `..` and nothing was expected, the file that was compared is the one that is
  replaced: the path reads the new text, and applying the edit once more finds its work done.
- It finds its work done only if the file read the new text, and changes nothing.
- If it fails, no file is changed, lost or new. -/
theorem apply_replaces (ht : t.IsTree) (e : FileEdit) :
    (∀ n t', e.apply t = (.ok (.applied n), t') →
      currentText t e.file = .ok e.before ∧ n = Text.byteLength e.after.toList ∧
      ∃ m, t'.get? m = some (.file (.text e.after)) ∧ (∀ l, l ≠ m → SameFile t t' l) ∧
        (e.before ≠ none ∨ ".." ∉ e.file.steps ∨
            currentText (makeParents t e.file).2 e.file = .ok none →
          (∀ c, t.get? m = some (.file c) → ∃ s, e.before = some s ∧ c = .text s) ∧
          t'.locate e.file = .ok m ∧ t'.readText e.file = .ok e.after ∧
          e.apply t' = (.ok .alreadyApplied, t'))) ∧
    (∀ t', e.apply t = (.ok .alreadyApplied, t') →
      t' = t ∧ t.readText e.file = .ok e.after ∧ e.apply t' = (.ok .alreadyApplied, t')) ∧
    (∀ cause t', e.apply t = (.error cause, t') → ∀ l, SameFile t t' l) := by
  refine ⟨fun n t' h => ?_, fun t' h => ?_, fun cause t' h => ?_⟩
  · rcases e.apply_cases t with ⟨cause, happly⟩ | ⟨happly, -⟩ | ⟨happly, hcurrent, -⟩
    · rw [happly] at h
      nomatch h
    · rw [happly] at h
      nomatch h
    rw [happly] at h
    obtain ⟨hn, hslash, u, d, name, hmake, hentry, hnot, rfl⟩ := install_applied h
    have hmore := makeParents_moreDirectories ht e.file
    rw [hmake] at hmore
    have hfile : (u.put (d ++ [name]) (.file (.text e.after))).get? (d ++ [name]) =
        some (.file (.text e.after)) := by rw [get?_put u (by simp), if_pos rfl]
    refine ⟨hcurrent, EditOutcome.applied.inj hn, d ++ [name], hfile, fun l hl => ?_, fun hsteady => ?_⟩
    · refine (hmore.sameFile l).trans fun c => ?_
      rw [get?_put u (by simp), if_neg hl]
    · rw [hmake] at hsteady
      have hread := currentText_of_compared ht hmake hentry hcurrent hsteady
      have hlocate := hentry.locate_put hslash hnot
        ((currentText_eq_ok_iff.1 hread).imp (fun ⟨s, hs, _⟩ => ⟨s, hs⟩) And.left) (.text e.after)
      have hagain := readText_eq_ok_iff.2 ⟨_, hlocate, hfile⟩
      refine ⟨fun c hc => ?_, hlocate, hagain, apply_of_readText hagain⟩
      refine eq_of_file hentry hslash hread ?_
      rw [hmore.get?_of_ne_none (by rw [hc]; nofun), hc]
  · rcases e.apply_cases t with ⟨cause, happly⟩ | ⟨happly, hcurrent⟩ | ⟨happly, -, -⟩
    · rw [happly] at h
      nomatch h
    · rw [happly] at h
      obtain rfl := (Prod.mk.inj h).2
      rcases currentText_eq_ok_iff.1 hcurrent with ⟨s, hs, hafter⟩ | ⟨-, hnone⟩
      · obtain rfl := Option.some.inj hafter
        exact ⟨rfl, hs, happly⟩
      · nomatch hnone
    · rw [happly] at h
      nomatch (install_applied h).1
  · rcases e.apply_cases t with ⟨cause', happly⟩ | ⟨happly, -⟩ | ⟨happly, -, -⟩
    · rw [happly] at h
      obtain rfl := (Prod.mk.inj h).2
      exact .refl t
    · rw [happly] at h
      nomatch h
    · rw [happly] at h
      exact (install_error ht h).sameFile

/-- A directory under two names, one of them a link, with a file in it. -/
def twoNames : FileTree where
  nodes := [(["fonts"], .directory), (["fonts", "a.xml"], .file (.text "old")),
    (["res"], .link ⟨"fonts"⟩)]
  current := []

/-- Through the link the file is compared and replaced. -/
theorem apply_replaces_through_link : ∃ t' m,
    FileEdit.apply ⟨⟨"/res/a.xml"⟩, some "old", "new"⟩ twoNames = (.ok (.applied 3), t') ∧
    t'.locate ⟨"/res/a.xml"⟩ = .ok m ∧ t'.get? m = some (.file (.text "new")) ∧
    (∀ l, l ≠ m → SameFile twoNames t' l) ∧
    FileEdit.apply ⟨⟨"/res/a.xml"⟩, some "old", "new"⟩ t' = (.ok .alreadyApplied, t') := by
  have htree : twoNames.IsTree := .of_nodes (by decide +kernel)
  have happly : FileEdit.apply ⟨⟨"/res/a.xml"⟩, some "old", "new"⟩ twoNames =
      (.ok (.applied 3), twoNames.put ["fonts", "a.xml"] (.file (.text "new"))) := by
    decide +kernel
  obtain ⟨-, -, m, hfile, hothers, hkept⟩ := (apply_replaces htree _).1 _ _ happly
  obtain ⟨-, hlocate, -, hagain⟩ := hkept (.inl nofun)
  exact ⟨_, m, happly, hlocate, hfile, hothers, hagain⟩

/-- A directory under two names, and a file beside it. -/
def besideLink : FileTree where
  nodes := [(["fonts"], .directory), (["res"], .link ⟨"fonts"⟩), (["a.xml"], .file (.text "old"))]
  current := []

/-- A path that goes down into a missing directory and up again reads nothing.  An edit that expects
nothing overwrites the file that the path leads to once that directory has been made; or it puts the
file in the place of a link that the path goes through, and then the path is refused. -/
theorem replaced_unread :
    (currentText besideLink ⟨"/new/../a.xml"⟩ = .ok none ∧
      FileEdit.apply ⟨⟨"/new/../a.xml"⟩, none, "new"⟩ besideLink = (.ok (.applied 3),
        (besideLink.put ["new"] .directory).put ["a.xml"] (.file (.text "new")))) ∧
    ∃ t', FileEdit.apply ⟨⟨"/new/../res/../res"⟩, none, "new"⟩ besideLink =
        (.ok (.applied 3), t') ∧
      t'.readText ⟨"/new/../res/../res"⟩ = .error .notDirectory ∧
      FileEdit.apply ⟨⟨"/new/../res/../res"⟩, none, "new"⟩ t' =
        (.error (.io ⟨"/new/../res/../res"⟩ .notDirectory), t') :=
  ⟨by decide +kernel, (besideLink.put ["new"] .directory).put ["res"] (.file (.text "new")),
    by decide +kernel⟩

end FileEdit

end AndroidFonts
