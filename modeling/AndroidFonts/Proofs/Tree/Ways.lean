/-
# `AndroidFonts.Proofs.Tree.Ways` — what a file that was put in is reached by

Putting a file in at a path first makes the directories that are missing on the way and then follows
the same path again.  Of the names above the file the first lead to a directory, by whatever links,
and the others are made below it (`FileTree.Provided`); so the file ends up at a place that the path
leads to afterwards (`FileEdit.Installed.readText`).

What led to a directory still does (`FileTree.KeepsWays`), unless the name that was written to was
that of a link to a directory.  For a path at which a text was read, or nothing was found, it was not
(`FileEdit.Installed.keepsWays`).
-/
import AndroidFonts.Proofs.Tree.Contents

namespace AndroidFonts

namespace FileTree

variable {t t' u : FileTree} {d l m : Location} {name : String} {names : List String} {n : Nat}

/-! ## Trees in which directories are still reached -/

/-- Directories stay, and links stay but for those that lead to no directory. -/
structure KeepsWays (t t' : FileTree) : Prop where
  current : t'.current = t.current
  directory : ∀ {l}, t.get? l = some .directory → t'.get? l = some .directory
  link : ∀ {l target}, t.get? l = some (.link target) → t'.get? l = some (.link target) ∨
    ∀ n ≤ maxLinks, ∀ m, Leads t n [] l m → t.get? m ≠ some .directory

/-- What names lead to on the way to a directory is a directory. -/
theorem Leads.directory_of_rest {m' : Location} (h : Leads t n m names m')
    (hdir : t.get? m' = some .directory) : t.get? m = some .directory := by
  cases names with
  | nil =>
    cases h
    exact hdir
  | cons name rest => exact h.directory_of_cons

namespace KeepsWays

theorem leads (h : KeepsWays t t') (hleads : Leads t n l names m)
    (hm : t.get? m = some .directory) (hl : t.Reached l) (hn : n ≤ maxLinks)
    (hnames : ∀ s ∈ names, IsStep s) : Leads t' n l names m := by
  induction hleads with
  | here => exact .here
  | stay hdir _ ih =>
    exact .stay (h.directory hdir) (ih hm hl hn fun s hs => hnames s (List.mem_cons_of_mem _ hs))
  | @up n l m rest hdir _ ih =>
    exact .up (h.directory hdir) (ih hm (hl.of_isPrefix (List.dropLast_prefix l)) hn
      fun s hs => hnames s (List.mem_cons_of_mem _ hs))
  | @down n l m name rest node hdir hdot hdots hlen hnode hlink hrest ih =>
    have hnext := hrest.directory_of_rest hm
    have hreached := hl.concat hdir ⟨hnames _ List.mem_cons_self, hdot, hdots⟩ hlen
      (holds_of_directory hnext)
    exact .down (h.directory hdir) hdot hdots hlen (h.directory hnext) nofun
      (ih hm hreached hn fun s hs => hnames s (List.mem_cons_of_mem _ hs))
  | @through n l m name rest target hdir hdot hdots hlen hnode hrest ih =>
    rcases h.link hnode with hnode' | hnowhere
    · exact .through (h.directory hdir) hdot hdots hlen hnode'
        (ih hm (hl.start target) (by omega) (isStep_of_mem_through hnames))
    -- a link that gave way led to no directory, but here names were followed through it to one
    · obtain ⟨i, j, c, hij, hc, hon⟩ := hrest.split
      rw [← List.append_nil target.steps] at hc
      have hway := hl.leads.append (.through hdir hdot hdots hlen hnode hc)
      exact absurd (hon.directory_of_rest hm) (hnowhere _ (by omega) c hway)

end KeepsWays

/-! ## Trees with more directories -/

/-- A place holds the same file in two trees, or none in both. -/
def SameFile (t t' : FileTree) (l : Location) : Prop :=
  ∀ c, t'.get? l = some (.file c) ↔ t.get? l = some (.file c)

namespace SameFile

theorem refl (t : FileTree) (l : Location) : SameFile t t l := fun _ => .rfl

theorem trans (h : SameFile t u l) (h' : SameFile u t' l) : SameFile t t' l :=
  fun c => (h' c).trans (h c)

end SameFile

/-- What is new are directories, at places where nothing was. -/
structure MoreDirectories (t t' : FileTree) : Prop where
  isTree : t'.IsTree
  current : t'.current = t.current
  get? : ∀ l, t'.get? l = t.get? l ∨ t.get? l = none ∧ t'.get? l = some .directory

namespace MoreDirectories

theorem refl (ht : t.IsTree) : MoreDirectories t t := ⟨ht, rfl, fun _ => .inl rfl⟩

theorem trans (h : MoreDirectories t u) (h' : MoreDirectories u t') : MoreDirectories t t' := by
  refine ⟨h'.isTree, h'.current.trans h.current, fun l => ?_⟩
  rcases h'.get? l with heq | ⟨hnone, hdir⟩
  · rw [heq]
    exact h.get? l
  · rcases h.get? l with heq | ⟨-, hdir'⟩
    · exact .inr ⟨heq ▸ hnone, hdir⟩
    · rw [hdir'] at hnone
      nomatch hnone

theorem get?_of_ne_none (h : MoreDirectories t t') (hl : t.get? l ≠ none) :
    t'.get? l = t.get? l := by
  rcases h.get? l with heq | ⟨hnone, -⟩
  · exact heq
  · exact absurd hnone hl

theorem sameFile (h : MoreDirectories t t') (l : Location) : SameFile t t' l := by
  intro c
  rcases h.get? l with heq | ⟨hnone, hdir⟩
  · rw [heq]
  · rw [hnone, hdir]
    exact iff_of_false nofun nofun

theorem startOf (h : MoreDirectories t t') (p : Path) : t'.startOf p = t.startOf p := by
  rw [FileTree.startOf, FileTree.startOf, h.current]

/-- What names lead to they still lead to. -/
theorem leads (h : MoreDirectories t t') (hleads : Leads t n l names m) : Leads t' n l names m := by
  have hkeep : ∀ {r node}, t.get? r = some node → t'.get? r = some node := fun hr =>
    (h.get?_of_ne_none (by rw [hr]; nofun)).trans hr
  induction hleads with
  | here => exact .here
  | stay hdir _ ih => exact .stay (hkeep hdir) ih
  | up hdir _ ih => exact .up (hkeep hdir) ih
  | down hdir hdot hdots hlen hnode hlink _ ih =>
    exact .down (hkeep hdir) hdot hdots hlen (hkeep hnode) hlink ih
  | through hdir hdot hdots hlen hnode _ ih =>
    exact .through (hkeep hdir) hdot hdots hlen (hkeep hnode) ih

/-- A text that was read is still read. -/
theorem readText {p : Path} {s : String} (h : MoreDirectories t t') (hs : t.readText p = .ok s) :
    t'.readText p = .ok s := by
  obtain ⟨m, hm, hfile⟩ := readText_eq_ok_iff.1 hs
  obtain ⟨hallowed, n, hn, hleads⟩ := locate_eq_ok_iff.1 hm
  have hleads' : Leads t' n (t'.startOf p) p.steps m := h.startOf p ▸ h.leads hleads
  exact readText_eq_ok_iff.2 ⟨m, locate_eq_ok_iff.2 ⟨hallowed, n, hn, hleads'⟩,
    (h.get?_of_ne_none (by rw [hfile]; nofun)).trans hfile⟩

end MoreDirectories

theorem Extended.moreDirectories (h : Extended d t t') : MoreDirectories t t' :=
  ⟨h.isTree, h.current, fun l => (h.get? l).imp_right fun hnew => ⟨hnew.1, hnew.2.1⟩⟩

theorem Extended.keepsWays (h : Extended d t t') : KeepsWays t t' where
  current := h.current
  directory hl := by rw [h.get?_of_ne_none (by rw [hl]; nofun), hl]
  link hl := .inl (by rw [h.get?_of_ne_none (by rw [hl]; nofun), hl])

theorem makeDirectory_moreDirectories {p : Path} (ht : t.IsTree) (h : t.makeDirectory p = .ok t') :
    MoreDirectories t t' := by
  obtain ⟨d, name, hentry, hnone, rfl⟩ := makeDirectory_eq_ok h
  exact (Extended.put ht hentry.directory hentry.isName hentry.short hnone).moreDirectories

/-- Wherever a path leads, making its directories adds directories and changes nothing else. -/
theorem makeDirectories_go_moreDirectories (k : Nat) (ht : t.IsTree) (p : Path) :
    MoreDirectories t (makeDirectories.go k t p).2 := by
  have hall : t.IsTree → MoreDirectories t (makeDirectories.go k t p).2 :=
    makeDirectories_go_preserves (P := fun t u => t.IsTree → MoreDirectories t u)
      (Q := fun _ => True) (fun _ => .refl)
      (fun htu huv ht => (htu ht).trans (huv (htu ht).isTree)) (fun _ _ => trivial)
      (fun _ h ht => makeDirectory_moreDirectories ht h) k trivial
  exact hall ht

/-! ## Reading and directories -/

/-- A path under which a text is read, or nothing is found, leads to no directory, whatever the
number of links. -/
theorem not_directory_of_read {p : Path} (hp : p.text ≠ "")
    (hread : (∃ s, t.readText p = .ok s) ∨ t.readText p = .error .notFound)
    (h : Leads t n (t.startOf p) p.steps m) : t.get? m ≠ some .directory := by
  intro hdir
  by_cases hallowed : Allowed p
  · by_cases hle : n ≤ maxLinks
    · rw [readText, locate_eq_ok_iff.2 ⟨hallowed, n, hle, h⟩] at hread
      simp only [ok_bind, hdir] at hread
      rcases hread with ⟨s, hs⟩ | hs
      · cases hs
      · cases hs
    · rw [readText, hallowed.locate, h.follow_eq_tooManyLinks (Nat.lt_of_not_le hle)] at hread
      rcases hread with ⟨s, hs⟩ | hs
      · cases hs
      · cases hs
  · obtain ⟨cause, hne, hall⟩ := locate_of_not_allowed hp hallowed
    rw [readText, hall] at hread
    rcases hread with ⟨s, hs⟩ | hs
    · cases hs
    · exact hne (Except.error.inj hs)

/-! ## A place that something else is put at -/

/-- A way stays when something else is put at a place that is no directory, unless it goes on through
a link at that place. -/
theorem Leads.replaced (h : Leads t n l names m) (hnot : t.get? (d ++ [name]) ≠ some .directory)
    (hholds : t.Holds (d ++ [name]) → t'.Holds (d ++ [name]))
    (hsame : ∀ r, r ≠ d ++ [name] → t'.get? r = t.get? r) :
    Leads t' n l names m ∨
      ∃ i j r rest, i + j ≤ n ∧ Leads t i d [name] r ∧ Leads t j r rest m := by
  have hdirectory : ∀ {r}, t.get? r = some .directory → t'.get? r = some .directory := by
    intro r hr
    rw [hsame r, hr]
    rintro rfl
    exact hnot hr
  have hheld : ∀ {r}, t.Holds r → t'.Holds r := by
    intro r hr
    by_cases heq : r = d ++ [name]
    · exact heq ▸ hholds (heq ▸ hr)
    · rw [Holds, hsame r heq]
      exact hr
  induction h with
  | here => exact .inl .here
  | stay hdir _ ih =>
    exact ih.imp (.stay (hdirectory hdir)) id
  | up hdir _ ih =>
    exact ih.imp (.up (hdirectory hdir)) id
  | down hdir hdot hdots hlen hnode hlink _ ih =>
    obtain ⟨node, hnode', hlink'⟩ := hheld ⟨_, hnode, hlink⟩
    exact ih.imp (.down (hdirectory hdir) hdot hdots hlen hnode' hlink') id
  | @through n l m first rest next hdir hdot hdots hlen hnode hrest ih =>
    by_cases heq : l ++ [first] = d ++ [name]
    · obtain ⟨rfl, hname⟩ := List.append_inj' heq rfl
      obtain rfl : first = name := List.cons.inj hname |>.1
      have hway := Leads.through hdir hdot hdots hlen hnode hrest
      rw [← List.singleton_append] at hway
      obtain ⟨i, j, r, hij, hi, hj⟩ := hway.split
      exact .inr ⟨i, j, r, rest, hij.ge, hi, hj⟩
    · rcases ih with hway | ⟨i, j, r, more, hij, hi, hj⟩
      · exact .inl (.through (hdirectory hdir) hdot hdots hlen ((hsame _ heq).trans hnode) hway)
      · exact .inr ⟨i, j, r, more, by omega, hi, hj⟩

/-! ## Making the directories for the names of a place -/

/-- The names of a directory lead on from any directory above it. -/
theorem IsTree.leads_below (ht : t.IsTree) {b : Location} (h : t.get? (d ++ b) = some .directory) :
    Leads t 0 d b (d ++ b) := (ht.reached (holds_of_directory h)).leads_append

/-- In `u` the names of `d` lead to the directory `m`: the first of them do so in `t`, and for the
others directories have been made, the first of which was missing. -/
def Provided (t : FileTree) (d m : Location) (u : FileTree) : Prop :=
  ∃ a b c, ∃ n ≤ maxLinks, d = a ++ b ∧ m = c ++ b ∧ Leads t n [] a c ∧
    t.get? c = some .directory ∧ (∀ name rest, b = name :: rest → t.get? (c ++ [name]) = none) ∧
    Extended m t u ∧ u.get? m = some .directory

theorem Provided.leads (h : Provided t d m u) (hnamed : d.Named) :
    ∃ n ≤ maxLinks, Leads u n [] d m ∧ u.get? m = some .directory := by
  obtain ⟨a, b, c, n, hn, rfl, rfl, ha, hc, -, hu, hm⟩ := h
  have hsteps : ∀ s ∈ a, IsStep s := fun s hs => (hnamed s (List.mem_append_left _ hs)).1
  have hway := hu.keepsWays.leads ha hc (reached_nil t) hn hsteps
  exact ⟨n, hn, hway.append (hu.isTree.leads_below hm), hm⟩

/-- What is there on the way to a directory that was provided led to a directory before. -/
theorem Provided.leads_of_isPrefix (ht : t.IsTree) (h : Provided t d m u) (hle : l <+: d)
    (hl : t.get? l ≠ none) :
    ∃ n ≤ maxLinks, ∃ r, Leads t n [] l r ∧ t.get? r = some .directory := by
  obtain ⟨a, b, c, n, hn, rfl, rfl, ha, hc, hmissing, -, -⟩ := h
  rcases List.prefix_or_prefix_of_prefix hle (List.prefix_append a b) with ⟨rest, rfl⟩ | ⟨x, rfl⟩
  · obtain ⟨i, j, r, rfl, hi, hj⟩ := ha.split
    exact ⟨i, (Nat.le_add_right i j).trans hn, r, hi, hj.directory_of_rest hc⟩
  · cases x with
    | nil => exact ⟨n, hn, c, by rwa [List.append_nil], hc⟩
    | cons first x =>
      -- then the names above are those of a place, and the next one is not missing
      have hdir := ht.above hl (List.prefix_append a _) (by simp)
      obtain ⟨-, rfl⟩ := (ht.reached (holds_of_directory hdir)).leads.unique ha
      obtain ⟨rest, rfl⟩ := (List.prefix_append_right_inj a).1 hle
      refine absurd (hmissing first _ rfl) fun hnone => hl ?_
      by_cases hnil : x = []
      · rwa [hnil]
      · exact ht.below (d := a ++ [first]) (by rw [hnone]; nofun) ⟨x, by simp⟩ (by simpa using hnil)

/-- For the names of a directory nothing has to be made. -/
theorem Provided.eq_of_directory (ht : t.IsTree) (h : Provided t d m u)
    (hdir : t.get? d = some .directory) : m = d ∧ u.current = t.current ∧
      ∀ l, u.get? l = t.get? l := by
  have hreached := ht.reached (holds_of_directory hdir)
  obtain ⟨k, -, hleads, -⟩ := h.leads hreached.named
  obtain ⟨a, b, c, n, hn, hd, hm, ha, hc, -, hu, -⟩ := h
  have hway := hu.keepsWays.leads hreached.leads hdir (reached_nil t) (Nat.zero_le _)
    fun s hs => (hreached.named s hs).1
  obtain ⟨-, rfl⟩ := hway.unique hleads
  refine ⟨rfl, hu.current, fun l => ?_⟩
  rcases hu.get? l with heq | ⟨hnone, -, hle⟩
  · exact heq
  · by_cases hld : l = d
    · rw [hld, hdir] at hnone
      nomatch hnone
    · rw [ht.above (by rw [hdir]; nofun) hle hld] at hnone
      nomatch hnone

/-- A directory that is there is provided. -/
theorem provided_of_leads (ht : t.IsTree) (hn : n ≤ maxLinks) (h : Leads t n [] d m)
    (hdir : t.get? m = some .directory) : Provided t d m t :=
  ⟨d, [], m, n, hn, (List.append_nil d).symm, (List.append_nil m).symm, h, hdir, nofun, .refl ht,
    hdir⟩

theorem provided_of_isDirectory (ht : t.IsTree) (hnamed : d.Named)
    (h : t.isDirectory d.path = true) : ∃ m, Provided t d m t := by
  obtain ⟨m, hm, hdir⟩ := isDirectory_iff.1 h
  obtain ⟨-, n, hn, hleads⟩ := (locate_path_eq_ok_iff hnamed).1 hm
  exact ⟨m, provided_of_leads ht hn hleads hdir⟩

/-- Where making a directory fails for want of a name, the names above it lead nowhere. -/
theorem not_leads_of_makeDirectory (hnamed : Location.Named (d ++ [name]))
    (h : t.makeDirectory (Location.path (d ++ [name])) = .error .notFound) (hn : n ≤ maxLinks) :
    ¬ Leads t n [] d m := by
  intro hleads
  have hname := hnamed name (by simp)
  unfold makeDirectory entryOf at h
  rw [reverse_names_path hnamed, startOf_of_isAbsolute (Location.isAbsolute_path _)] at h
  simp only [throw_bind, List.reverse_reverse, hname.2.1, hname.2.2, decide_false, Bool.or_false,
    Bool.false_eq_true, if_false, hleads.follow_eq_ok hn, ok_bind] at h
  split at h
  · nomatch h
  · split at h
    · nomatch h
    · split at h
      · nomatch h
      · split at h
        · nomatch h
        · simp only [pure_bind] at h
          split at h
          · nomatch h
          · nomatch h

/-- One more directory is made below those that were provided. -/
theorem Provided.concat (h : Provided t d m u) (hnamed : Location.Named (d ++ [name]))
    (hmake : u.makeDirectory (Location.path (d ++ [name])) = .ok t') :
    Provided t (d ++ [name]) (m ++ [name]) t' := by
  obtain ⟨-, m', n', -, hleads', hdir, hlen, hnone, rfl⟩ := makeDirectory_path_eq_ok hnamed hmake
  obtain ⟨i', -, hleads, -⟩ := h.leads (hnamed.above (List.prefix_append _ _))
  obtain rfl := (hleads.unique hleads').2
  obtain ⟨a, b, c, n, hn, rfl, rfl, ha, hc, hmissing, hu, hm⟩ := h
  refine ⟨a, b ++ [name], c, n, hn, List.append_assoc .., List.append_assoc .., ha, hc, ?_, ?_, ?_⟩
  · cases b with
    | nil =>
      rintro _ _ ⟨⟩
      rw [List.append_nil] at hnone
      exact Classical.byContradiction fun hne => hne ((hu.get?_of_ne_none hne).symm.trans hnone)
    | cons first rest =>
      rintro _ _ ⟨⟩
      exact hmissing first rest rfl
  · exact (hu.mono (List.prefix_append _ _)).trans
      (.put hu.isTree hm (hnamed name (by simp)) hlen hnone)
  · rw [get?_put u (by simp), if_pos rfl]

/-- Where the names above led nowhere, there is nothing yet below what was provided for them. -/
theorem Provided.isDirectory_concat (ht : t.IsTree) (h : Provided t d m u)
    (hnamed : Location.Named (d ++ [name])) (hnowhere : ∀ n ≤ maxLinks, ∀ m, ¬ Leads t n [] d m) :
    u.isDirectory (Location.path (d ++ [name])) = false := by
  rw [← Bool.not_eq_true]
  intro hdir
  obtain ⟨r, hr, -⟩ := isDirectory_iff.1 hdir
  obtain ⟨-, k, -, hway⟩ := (locate_path_eq_ok_iff hnamed).1 hr
  obtain ⟨i, j, c', -, hd, hlast⟩ := hway.split
  obtain ⟨i', -, hleads, -⟩ := h.leads (hnamed.above (List.prefix_append _ _))
  obtain rfl := (hleads.unique hd).2
  obtain ⟨a, b, c, n, hn, rfl, rfl, ha, -, hmissing, hu, -⟩ := h
  have hthere : u.get? (c ++ b ++ [name]) ≠ none := by
    obtain ⟨-, -, ⟨-, -, node, hnode, -⟩ | ⟨target, hlinked⟩⟩ :=
      hlast.singleton_cases (hnamed name (by simp))
    · rw [hnode]
      nofun
    · rw [hlinked]
      nofun
  cases b with
  | nil => exact hnowhere n hn c (by rwa [List.append_nil])
  | cons first rest =>
    have hnone : t.get? (c ++ first :: rest ++ [name]) = none := by
      refine ht.below (d := c ++ [first]) (by rw [hmissing first rest rfl]; nofun)
        ⟨rest ++ [name], by simp⟩ (by simp)
    rcases hu.get? (c ++ first :: rest ++ [name]) with heq | ⟨-, -, hle⟩
    · exact hthere (heq.trans hnone)
    · exact absurd hle.length_le (by simp)

theorem eq_of_ite_isDirectory {p : Path} {cause : IoError}
    (h : ((if t.isDirectory p = true then .ok () else .error cause : Except IoError Unit), t) =
      (.ok (), u)) : t.isDirectory p = true ∧ u = t := by
  obtain ⟨hok, htree⟩ := Prod.mk.inj h
  split at hok
  · rename_i hdir
    exact ⟨hdir, htree.symm⟩
  · nomatch hok

/-- A directory is there, or is made at once, or once those above it have been made. -/
theorem makeDirectories_go_eq_ok {k : Nat} {p : Path}
    (h : makeDirectories.go (k + 1) t p = (.ok (), u)) :
    ((p.text = "" ∨ t.isDirectory p = true) ∧ u = t) ∨ t.makeDirectory p = .ok u ∨
      ∃ above v, t.makeDirectory p = .error .notFound ∧ p.parent? = some above ∧
        makeDirectories.go k t above = (.ok (), v) ∧
          (v.makeDirectory p = .ok u ∨ v.isDirectory p = true ∧ u = v) := by
  rw [makeDirectories.go] at h
  split at h
  · rename_i hnil
    exact .inl ⟨.inl hnil, (Prod.mk.inj h).2.symm⟩
  cases hmake : t.makeDirectory p with
  | ok t' =>
    rw [hmake] at h
    exact .inr (.inl ((Prod.mk.inj h).2 ▸ rfl))
  | error cause =>
    rw [hmake] at h
    cases cause
    case notFound =>
      refine .inr (.inr ?_)
      cases hparent : p.parent? with
      | none =>
        rw [hparent] at h
        cases h
      | some above =>
        simp only [hparent] at h
        rcases hgo : makeDirectories.go k t above with ⟨cause | _, v⟩
        · simp only [hgo] at h
          cases h
        · simp only [hgo] at h
          refine ⟨above, v, rfl, rfl, hgo, ?_⟩
          cases hlast : v.makeDirectory p with
          | ok t' =>
            rw [hlast] at h
            exact .inl ((Prod.mk.inj h).2 ▸ rfl)
          | error cause =>
            simp only [hlast] at h
            exact .inr (eq_of_ite_isDirectory h)
    all_goals
      obtain ⟨hdir, rfl⟩ := eq_of_ite_isDirectory h
      exact .inl ⟨.inr hdir, rfl⟩

theorem provided_of_go {k : Nat} (ht : t.IsTree) (hnamed : d.Named) (hk : d.length < k)
    (h : makeDirectories.go k t d.path = (.ok (), u)) : ∃ m, Provided t d m u := by
  induction k generalizing d u with
  | zero => exact absurd hk (Nat.not_lt_zero _)
  | succ k ih =>
    rcases makeDirectories_go_eq_ok h with ⟨hdir, rfl⟩ | hmake | ⟨above, v, hmake, hparent, hgo, hlast⟩
    · exact provided_of_isDirectory ht hnamed (hdir.resolve_left d.path_text_ne)
    · rcases List.eq_nil_or_concat' d with rfl | ⟨e, name, rfl⟩
      · nomatch t.makeDirectory_path_nil.symm.trans hmake
      obtain ⟨-, m, n, hn, hleads, hdir, hlen, hnone, rfl⟩ := makeDirectory_path_eq_ok hnamed hmake
      refine ⟨m ++ [name], e, [name], m, n, hn, rfl, rfl, hleads, hdir, ?_,
        .put ht hdir (hnamed name (by simp)) hlen hnone, by simp [get?_put]⟩
      rintro _ _ ⟨⟩
      exact hnone
    · rcases List.eq_nil_or_concat' d with rfl | ⟨e, name, rfl⟩
      · nomatch Location.parent?_path_nil.symm.trans hparent
      obtain rfl := Option.some.inj ((Location.parent?_path hnamed).symm.trans hparent)
      obtain ⟨m, hprovided⟩ := ih (hnamed.above (List.prefix_append _ _)) (by simpa using hk) hgo
      rcases hlast with hlast | ⟨hdir, -⟩
      · exact ⟨_, hprovided.concat hnamed hlast⟩
      · rw [hprovided.isDirectory_concat ht hnamed
          fun n hn m => not_leads_of_makeDirectory hnamed hmake hn] at hdir
        nomatch hdir

end FileTree

open FileTree

namespace FileEdit

variable {t t' u : FileTree} {e : FileEdit} {d m : Location} {name : String} {o : EditOutcome}

/-- In `u` all is there for a file to be put in at a path: a directory has been provided for the names
above it, and its own name can be written there. -/
structure Installed (t : FileTree) (d : Location) (name : String) (m : Location) (u : FileTree) :
    Prop where
  provided : Provided t d m u
  allowed : Allowed (Location.path (d ++ [name]))
  short : Text.byteLength name.toList ≤ maxName
  not_directory : u.get? (m ++ [name]) ≠ some .directory

/-- An edit that was installed made directories, and put its text in at the end of its path. -/
theorem install_applied {o : EditOutcome} (h : e.install t = (.ok o, t')) :
    o = .applied (Text.byteLength e.after.toList) ∧ e.file.text.toList.getLast? ≠ some '/' ∧
      ∃ u d name, makeParents t e.file = (.ok (), u) ∧ u.EntryAt e.file d name ∧
        u.get? (d ++ [name]) ≠ some .directory ∧
        t' = u.put (d ++ [name]) (.file (.text e.after)) := by
  unfold install at h
  rcases hmake : makeParents t e.file with ⟨cause | _, u⟩
  · rw [hmake] at h
    cases h
  · rw [hmake] at h
    cases hreplace : u.replaceFile e.file e.after with
    | error cause =>
      simp only [write, hreplace] at h
      cases h
    | ok v =>
      simp only [write, hreplace] at h
      obtain ⟨ho, rfl⟩ := Prod.mk.inj h
      obtain ⟨hslash, d, name, hentry, hnot, rfl⟩ := replaceFile_eq_ok hreplace
      exact ⟨(Except.ok.inj ho).symm, hslash, u, d, name, rfl, hentry, hnot, rfl⟩

theorem install_eq_ok (ht : t.IsTree) (hnamed : Location.Named (d ++ [name]))
    (he : e.file = Location.path (d ++ [name])) (h : e.install t = (.ok o, t')) :
    ∃ m u, Installed t d name m u ∧ t' = u.put (m ++ [name]) (.file (.text e.after)) := by
  have hd := hnamed.above (List.prefix_append d [name])
  obtain ⟨-, -, u, m, last, hmake, hentry, hnot, rfl⟩ := install_applied h
  rw [he] at hmake hentry
  obtain ⟨rfl, n, -, hleads⟩ := hentry.leads_path hnamed
  simp only [makeParents, Location.parent?_path hnamed] at hmake
  rcases hdirs : t.makeDirectories (Location.path d) with ⟨cause | _, v⟩
  · simp only [hdirs] at hmake
    cases hmake
  · simp only [hdirs] at hmake
    obtain rfl := (Prod.mk.inj hmake).2
    obtain ⟨m', hprovided⟩ := provided_of_go ht hd (length_lt_pieces_path hd) hdirs
    obtain ⟨n', -, hleads', -⟩ := hprovided.leads hd
    obtain rfl := (hleads'.unique hleads).2
    exact ⟨m', v, ⟨hprovided, hentry.allowed, hentry.short, hnot⟩, rfl⟩

theorem makeParents_moreDirectories (ht : t.IsTree) (p : Path) :
    MoreDirectories t (makeParents t p).2 := by
  unfold makeParents
  cases p.parent? with
  | none => exact .refl ht
  | some q =>
    have hmade := makeDirectories_go_moreDirectories q.pieces.length ht q
    rw [← makeDirectories] at hmade
    rcases hmake : t.makeDirectories q with ⟨cause | _, u⟩
    · simpa only [hmake] using hmade
    · simpa only [hmake] using hmade

/-- Where a file cannot be put in, the files stay as they are. -/
theorem install_error {cause : EditError} (ht : t.IsTree) (h : e.install t = (.error cause, t')) :
    MoreDirectories t t' := by
  have hmade := makeParents_moreDirectories ht e.file
  unfold install at h
  rcases hmake : makeParents t e.file with ⟨cause' | _, u⟩
  · rw [hmake] at h hmade
    obtain rfl := (Prod.mk.inj h).2
    exact hmade
  · rw [hmake] at h hmade
    cases hreplace : u.replaceFile e.file e.after with
    | error cause' =>
      simp only [write, hreplace] at h
      obtain rfl := (Prod.mk.inj h).2
      exact hmade
    | ok v =>
      simp only [write, hreplace] at h
      cases h

/-- A link under whose path a text is read, or nothing is found, leads to no directory. -/
theorem not_directory_of_readText {n k : Nat} {r : Location} (hnamed : Location.Named (d ++ [name]))
    (hread : (∃ s, t.readText (Location.path (d ++ [name])) = .ok s) ∨
      t.readText (Location.path (d ++ [name])) = .error .notFound)
    (hd : Leads t n [] d m) (hk : Leads t k [] (m ++ [name]) r) : t.get? r ≠ some .directory := by
  have hm := hd.reached (reached_nil t) fun s hs => (hnamed s (List.mem_append_left _ hs)).1
  obtain ⟨i, j, c, rfl, hi, hj⟩ := hk.split
  obtain ⟨rfl, rfl⟩ := hm.leads.unique hi
  refine not_directory_of_read (n := n + j) (Location.path_text_ne _) hread ?_
  rw [startOf_of_isAbsolute (Location.isAbsolute_path _), Location.steps_path hnamed,
    if_neg (by simp)]
  exact hd.append hj

namespace Installed

variable {c : Contents}

/-- A place that held something before the file was put in is in a directory that was there. -/
theorem leads_of_ne_none (h : Installed t d name m u) (ht : t.IsTree)
    (hthere : t.get? (m ++ [name]) ≠ none) : ∃ n ≤ maxLinks, Leads t n [] d m := by
  obtain ⟨a, b, c, n, hn, rfl, rfl, ha, -, hmissing, -⟩ := h.provided
  cases b with
  | nil => exact ⟨n, hn, by rwa [List.append_nil, List.append_nil]⟩
  | cons first rest =>
    refine absurd (ht.below (d := c ++ [first]) ?_ ⟨rest ++ [name], by simp⟩ (by simp)) hthere
    rw [hmissing first rest rfl]
    nofun

theorem isTree (h : Installed t d name m u) (hnamed : Location.Named (d ++ [name])) :
    (u.put (m ++ [name]) (.file c)).IsTree := by
  obtain ⟨a, b, c, n, -, -, -, -, -, -, hu, hm⟩ := h.provided
  exact hu.isTree.put hm (hnamed name (by simp)) h.short fun heq => absurd heq h.not_directory

/-- Putting a file in leaves every way to a directory. -/
theorem keepsWays (h : Installed t d name m u) (ht : t.IsTree)
    (hnamed : Location.Named (d ++ [name]))
    (hread : (∃ s, t.readText (Location.path (d ++ [name])) = .ok s) ∨
      t.readText (Location.path (d ++ [name])) = .error .notFound) :
    KeepsWays t (u.put (m ++ [name]) (.file c)) := by
  obtain ⟨a, b, c', n, -, -, -, -, -, -, hu, -⟩ := h.provided
  have hne : m ++ [name] ≠ [] := by simp
  refine ⟨hu.current, fun {l} hl => ?_, fun {l target} hl => ?_⟩
  · have hul := hu.keepsWays.directory hl
    rw [get?_put u hne, if_neg, hul]
    rintro rfl
    exact h.not_directory hul
  · by_cases hlast : l = m ++ [name]
    · subst hlast
      obtain ⟨n', -, hleads⟩ := h.leads_of_ne_none ht (by rw [hl]; nofun)
      exact .inr fun k _ r hk => not_directory_of_readText hnamed hread hleads hk
    · rw [get?_put u hne, if_neg hlast, hu.get?_of_ne_none (by rw [hl]; nofun)]
      exact .inl hl

theorem get? (u : FileTree) (m : Location) (name : String) (c : Contents) :
    (u.put (m ++ [name]) (.file c)).get? (m ++ [name]) = some (.file c) := by
  rw [get?_put u (by simp), if_pos rfl]

/-- The path that a file was put in at leads to it. -/
theorem locate (h : Installed t d name m u) (ht : t.IsTree)
    (hnamed : Location.Named (d ++ [name]))
    (hread : (∃ s, t.readText (Location.path (d ++ [name])) = .ok s) ∨
      t.readText (Location.path (d ++ [name])) = .error .notFound) (c : Contents) :
    (u.put (m ++ [name]) (.file c)).locate (Location.path (d ++ [name])) = .ok (m ++ [name]) := by
  have hways := h.keepsWays (c := c) ht hnamed hread
  have htree := h.isTree (c := c) hnamed
  have hname := hnamed name (by simp)
  have hfile := get? u m name c
  have hdir := htree.directory m name (by rw [hfile]; nofun)
  obtain ⟨a, b, c, n, hn, rfl, rfl, ha, hc, -⟩ := h.provided
  have hway := hways.leads ha hc (reached_nil t) hn
    fun s hs => (hnamed s (List.mem_append_left _ (List.mem_append_left _ hs))).1
  have hlast := hway.append (htree.leads_below hdir)
  have hentry := hlast.append (.down hdir hname.2.1 hname.2.2 h.short hfile nofun .here)
  exact (locate_path_eq_ok_iff hnamed).2 ⟨h.allowed, n, hn, hentry⟩

theorem readText (h : Installed t d name m u) (ht : t.IsTree)
    (hnamed : Location.Named (d ++ [name]))
    (hread : (∃ s, t.readText (Location.path (d ++ [name])) = .ok s) ∨
      t.readText (Location.path (d ++ [name])) = .error .notFound) (text : String) :
    (u.put (m ++ [name]) (.file (.text text))).readText (Location.path (d ++ [name])) = .ok text :=
  readText_eq_ok_iff.2 ⟨_, h.locate ht hnamed hread _, get? u m name _⟩

/-- On a straight way the file ends up at the place that its path says. -/
theorem eq_of_straight (h : Installed t d name m u) (hnamed : Location.Named (d ++ [name]))
    (hd : t.Straight d) : m = d := by
  obtain ⟨a, b, c, n, hn, rfl, rfl, ha, hc, -, -, -⟩ := h.provided
  have hle : a <+: a ++ b ++ [name] := (List.prefix_append a b).trans (List.prefix_append _ _)
  have hallowed : Allowed a.path :=
    h.allowed.of_isPrefix (Location.path_text_ne a) (Location.path_prefix_path hle)
  rw [((hd.of_isPrefix (List.prefix_append a b)).eq_of_leads (hnamed.above hle) hallowed hn ha hc).2]

theorem sameFile (h : Installed t d name m u) {l : Location} (hl : l ≠ m ++ [name]) :
    SameFile t (u.put (m ++ [name]) (.file c)) l := by
  obtain ⟨a, b, c', n, -, -, -, -, -, -, hu, -⟩ := h.provided
  intro c''
  rw [get?_put u (by simp), if_neg hl]
  exact hu.moreDirectories.sameFile l c''

end Installed

end FileEdit

end AndroidFonts
