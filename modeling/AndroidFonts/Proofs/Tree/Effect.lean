/-
# `AndroidFonts.Proofs.Tree.Effect` — what writing a file changes

A write is judged by the path of a place and done by following that path again.  Where the way to the
place is straight the two agree: making the directories above `r` adds directories at missing places
above `r` and nothing else (`makeDirectories_extended`), and putting the file in changes `r` alone
(`FileEdit.install_path`).  So applying an edit leaves every other place as it was, except that
missing directories above `r` are made (`FileEdit.apply_touched`).  Being straight is kept while the
directories are made: a link on the way would have nothing below it, so nothing would be made.
-/
import AndroidFonts.Proofs.Tree.Shape
import AndroidFonts.Tree.Edit

namespace AndroidFonts

namespace Location

theorem namesOf_pieces_path {l : Location} (h : l.Named) : Path.namesOf l.path.pieces = l := by
  have hsteps := steps_path h
  by_cases hne : l = []
  · rw [hne, pieces_path_nil]
    rfl
  · rw [Path.steps_eq, if_neg (getLast?_path h hne), if_neg hne] at hsteps
    simpa using hsteps

theorem parent?_path_nil : (path []).parent? = none := by decide +kernel

end Location

namespace FileTree

variable {t t' u : FileTree} {d e r l m : Location} {name : String} {text : String}

/-! ## The directory of a new entry -/

theorem throw_bind {α β : Type} (cause : IoError) (f : α → Except IoError β) :
    ((throw cause : Except IoError α) >>= f) = .error cause := rfl

theorem ok_bind {α β : Type} (a : α) (f : α → Except IoError β) :
    ((Except.ok a : Except IoError α) >>= f) = f a := rfl

theorem error_bind {α β : Type} (cause : IoError) (f : α → Except IoError β) :
    ((Except.error cause : Except IoError α) >>= f) = .error cause := rfl

theorem ok_of_isSome {ε α : Type} {x : Except ε α} (h : x.toOption.isSome = true) :
    ∃ a, x = .ok a := by
  cases x with
  | error cause => nomatch h
  | ok a => exact ⟨a, rfl⟩

theorem fst_ok_of_isSome {ε α β : Type} {x : Except ε α × β}
    (h : x.1.toOption.isSome = true) : ∃ a b, x = (.ok a, b) := by
  obtain ⟨a, ha⟩ := ok_of_isSome h
  exact ⟨a, x.2, Prod.ext ha rfl⟩

theorem reverse_names_path (hnamed : Location.Named (d ++ [name])) :
    (((Location.path (d ++ [name])).pieces.filter (· ≠ [])).map String.ofList).reverse =
      name :: d.reverse := by
  rw [← Path.namesOf, Location.namesOf_pieces_path hnamed]
  simp

/-- A path has the entry `name` of the directory `d` at its end: the names before it lead there. -/
structure EntryAt (t : FileTree) (p : Path) (d : Location) (name : String) : Prop where
  allowed : Allowed p
  isName : IsName name
  short : Text.byteLength name.toList ≤ maxName
  directory : t.get? d = some .directory
  leads : ∃ before, Path.namesOf p.pieces = before ++ [name] ∧
    ∃ n ≤ maxLinks, Leads t n (t.startOf p) before d

theorem entryOf_eq_ok {p : Path} (h : t.entryOf p = .ok (d, some name)) : t.EntryAt p d name := by
  unfold entryOf at h
  rw [← Path.namesOf] at h
  simp only [throw_bind] at h
  split at h
  · cases h
  rename_i hnul
  split at h
  · cases h
  rename_i hlong
  cases hnames : (Path.namesOf p.pieces).reverse with
  | nil =>
    rw [hnames] at h
    cases h
  | cons last before =>
    have hsplit : Path.namesOf p.pieces = before.reverse ++ [last] := by
      rw [← List.reverse_reverse (Path.namesOf p.pieces), hnames, List.reverse_cons]
    simp only [hnames] at h
    cases hm : t.follow maxLinks (t.startOf p) before.reverse with
    | error cause =>
      rw [hm, error_bind] at h
      cases h
    | ok m =>
      rw [hm, ok_bind] at h
      split at h
      · cases h
      rename_i hdir
      split at h
      · cases h
      rename_i hdots
      split at h
      · cases h
      rename_i hlen
      obtain ⟨rfl, hlast⟩ := Prod.mk.inj (Except.ok.inj h)
      obtain rfl := Option.some.inj hlast
      have hstep : IsStep last := by
        refine Path.isStep_of_mem_steps (p := p) ?_
        rw [Path.steps_eq, hsplit]
        simp
      exact {
        allowed := by
          refine ⟨hnul, by simpa using hlong, fun hempty => ?_⟩
          rw [Path.pieces, hempty] at hsplit
          exact absurd hsplit (by simp [Text.splitOn, Path.namesOf])
        isName := ⟨hstep, by simpa using hdots⟩
        short := Nat.le_of_not_lt hlen
        directory := by simpa using hdir
        leads := ⟨_, hsplit, follow_eq_ok_iff.1 hm⟩ }

/-- For the path of a place the entry is under the last name of that place. -/
theorem EntryAt.leads_path {last : String} (hnamed : Location.Named (d ++ [name]))
    (h : t.EntryAt (Location.path (d ++ [name])) m last) :
    last = name ∧ ∃ n ≤ maxLinks, Leads t n [] d m := by
  obtain ⟨before, hsplit, hleads⟩ := h.leads
  rw [Location.namesOf_pieces_path hnamed] at hsplit
  obtain ⟨rfl, hlast⟩ := List.append_inj' hsplit rfl
  rw [startOf_of_isAbsolute (Location.isAbsolute_path _)] at hleads
  exact ⟨(List.cons.inj hlast).1.symm, hleads⟩

/-- On a straight way the directory of a new entry is the one its path says. -/
theorem Straight.eq_of_leads_above {n : Nat} (hd : t.Straight d)
    (hnamed : Location.Named (d ++ [name])) (hallowed : Allowed (Location.path (d ++ [name])))
    (hn : n ≤ maxLinks) (h : Leads t n [] d m) (hdir : t.get? m = some .directory) : m = d :=
  have hdl : d <+: d ++ [name] := List.prefix_append _ _
  (hd.eq_of_leads (hnamed.above hdl)
    (hallowed.of_isPrefix (Location.path_text_ne d) (Location.path_prefix_path hdl)) hn h hdir).2

/-! ## Making directories -/

theorem makeDirectory_path_nil (t : FileTree) :
    t.makeDirectory (Location.path []) = .error .alreadyExists := by
  have hnul : '\x00' ∉ (Location.path []).text.toList := by decide +kernel
  have hlong : (Location.path []).isTooLong = false := by decide +kernel
  have hentry : t.entryOf (Location.path []) = .ok ([], none) := by
    unfold entryOf
    rw [if_neg hnul, hlong, Location.pieces_path_nil]
    rfl
  rw [makeDirectory, hentry]
  rfl

theorem makeDirectory_eq_ok {p : Path} (h : t.makeDirectory p = .ok t') :
    ∃ d name, t.EntryAt p d name ∧ t.get? (d ++ [name]) = none ∧
      t' = t.put (d ++ [name]) .directory := by
  unfold makeDirectory at h
  rcases hentry : t.entryOf p with cause | ⟨d, _ | name⟩
  · rw [hentry, error_bind] at h
    nomatch h
  · rw [hentry, ok_bind] at h
    nomatch h
  · rw [hentry, ok_bind] at h
    simp only [throw_bind] at h
    split at h
    · nomatch h
    · rename_i hnone
      exact ⟨d, name, entryOf_eq_ok hentry, by simpa using hnone, (Except.ok.inj h).symm⟩

theorem makeDirectory_path_eq_ok (hnamed : Location.Named (d ++ [name]))
    (h : t.makeDirectory (Location.path (d ++ [name])) = .ok t') :
    Allowed (Location.path (d ++ [name])) ∧ ∃ m, ∃ n ≤ maxLinks, Leads t n [] d m ∧
      t.get? m = some .directory ∧ Text.byteLength name.toList ≤ maxName ∧
      t.get? (m ++ [name]) = none ∧ t' = t.put (m ++ [name]) .directory := by
  obtain ⟨m, last, hentry, hnone, rfl⟩ := makeDirectory_eq_ok h
  obtain ⟨rfl, n, hn, hleads⟩ := hentry.leads_path hnamed
  exact ⟨hentry.allowed, m, n, hn, hleads, hentry.directory, hentry.short, hnone, rfl⟩

theorem Straight.makeDirectory_path (hd : t.Straight d) (hnamed : Location.Named (d ++ [name]))
    (h : t.makeDirectory (Location.path (d ++ [name])) = .ok t') :
    Allowed (Location.path (d ++ [name])) ∧ t.get? d = some .directory ∧
      Text.byteLength name.toList ≤ maxName ∧ t.get? (d ++ [name]) = none ∧
      t' = t.put (d ++ [name]) .directory := by
  obtain ⟨hallowed, m, n, hn, hleads, hdir, hlen, hnone, rfl⟩ := makeDirectory_path_eq_ok hnamed h
  obtain rfl := hd.eq_of_leads_above hnamed hallowed hn hleads hdir
  exact ⟨hallowed, hdir, hlen, hnone, rfl⟩

/-- Directories are added at missing places down to `d`, and nothing else is changed. -/
structure Extended (d : Location) (t t' : FileTree) : Prop where
  isTree : t'.IsTree
  current : t'.current = t.current
  get? : ∀ l, t'.get? l = t.get? l ∨
    t.get? l = none ∧ t'.get? l = some .directory ∧ l <+: d

namespace Extended

theorem refl (ht : t.IsTree) : Extended d t t := ⟨ht, rfl, fun _ => .inl rfl⟩

theorem trans (h : Extended d t u) (h' : Extended d u t') : Extended d t t' := by
  refine ⟨h'.isTree, h'.current.trans h.current, fun l => ?_⟩
  rcases h'.get? l with heq | ⟨hnone, hdir, hl⟩
  · rw [heq]
    exact h.get? l
  · rcases h.get? l with heq | ⟨-, hdir', -⟩
    · exact .inr ⟨heq ▸ hnone, hdir, hl⟩
    · rw [hdir'] at hnone
      nomatch hnone

theorem mono (h : Extended e t t') (hed : e <+: d) : Extended d t t' := by
  refine ⟨h.isTree, h.current, fun l => ?_⟩
  rcases h.get? l with heq | ⟨hnone, hdir, hl⟩
  · exact .inl heq
  · exact .inr ⟨hnone, hdir, hl.trans hed⟩

theorem put (ht : t.IsTree) (hdir : t.get? d = some .directory)
    (hname : IsName name) (hlen : Text.byteLength name.toList ≤ maxName)
    (hnone : t.get? (d ++ [name]) = none) :
    Extended (d ++ [name]) t (t.put (d ++ [name]) .directory) := by
  refine ⟨ht.put hdir hname hlen fun _ => rfl, rfl, fun l => ?_⟩
  rw [get?_put t (by simp)]
  split
  · rename_i heq
    exact .inr ⟨heq ▸ hnone, rfl, heq ▸ List.prefix_rfl⟩
  · exact .inl rfl

/-- What is there stays. -/
theorem get?_of_ne_none (h : Extended d t t') (hl : t.get? l ≠ none) : t'.get? l = t.get? l := by
  rcases h.get? l with heq | ⟨hnone, -, -⟩
  · exact heq
  · exact absurd hnone hl

/-- A way that was straight stays straight.  If there is a link on it, nothing can have been added:
above the link all was there, and below it there is nothing. -/
theorem straight (h : Extended d t t') (ht : t.IsTree) (hd : t.Straight e) (hed : e <+: d)
    (hnamed : d.Named) : t'.Straight e := by
  intro c hc target htarget
  have hlink : t.get? c = some (.link target) := by
    rcases h.get? c with heq | ⟨-, hdir, -⟩
    · exact heq ▸ htarget
    · rw [hdir] at htarget
      nomatch htarget
  have hsame : ∀ l, t'.get? l = t.get? l := by
    intro l
    rcases h.get? l with heq | ⟨hnone, hdir, hl⟩
    · exact heq
    · by_cases hlc : l = c
      · rw [hlc, hlink] at hnone
        nomatch hnone
      · rcases List.prefix_or_prefix_of_prefix hl (hc.trans hed) with hle | hle
        · have := ht.above (by rw [hlink]; nofun) hle hlc
          rw [this] at hnone
          nomatch hnone
        · have := h.isTree.above (by rw [hdir]; nofun) hle (Ne.symm hlc)
          rw [this] at htarget
          nomatch htarget
  have hrewritten : Rewritten t t' := ⟨h.current, fun l => .inl (hsame l)⟩
  exact hrewritten.straight hd (hnamed.above hed) c hc target htarget

end Extended

theorem Straight.of_isPrefix (h : t.Straight d) (hed : e <+: d) : t.Straight e :=
  fun c hc => h c (hc.trans hed)

/-- What each directory that is made on the way up a path does to the tree, all of them do. -/
theorem makeDirectories_go_preserves {P : FileTree → FileTree → Prop} {Q : Path → Prop}
    (hrefl : ∀ t, P t t) (htrans : ∀ {t u v}, P t u → P u v → P t v)
    (hparent : ∀ {p q}, Q p → p.parent? = some q → Q q)
    (hmake : ∀ {t t' p}, Q p → t.makeDirectory p = .ok t' → P t t') (n : Nat) {p : Path} (hp : Q p) :
    P t (makeDirectories.go n t p).2 := by
  induction n generalizing p with
  | zero => exact hrefl t
  | succ n ih =>
    rw [makeDirectories.go]
    split
    · exact hrefl t
    cases h : t.makeDirectory p with
    | ok t' => exact hmake hp h
    | error cause =>
      cases cause
      case notFound =>
        cases habove : p.parent? with
        | none => exact hrefl t
        | some q =>
          have hrest := ih (hparent hp habove)
          rcases hgo : makeDirectories.go n t q with ⟨cause | _, u⟩
          · rw [hgo] at hrest
            simpa only [hgo] using hrest
          · rw [hgo] at hrest
            cases h' : u.makeDirectory p with
            | ok t' => simpa only [hgo, h'] using htrans hrest (hmake hp h')
            | error cause => simpa only [hgo, h'] using hrest
      all_goals exact hrefl t

/-- Making the directories down to a place adds directories at missing places above it. -/
theorem makeDirectories_go_extended (n : Nat) (ht : t.IsTree) (hnamed : d.Named)
    (hd : t.Straight d) : Extended d t (makeDirectories.go n t d.path).2 := by
  have hall : t.IsTree → t.Straight d → Extended d t (makeDirectories.go n t d.path).2 := by
    refine makeDirectories_go_preserves (P := fun t u => t.IsTree → t.Straight d → Extended d t u)
      (Q := fun p => ∃ e : Location, p = e.path ∧ e <+: d) (fun t ht _ => .refl ht)
      (fun htu huv ht hd => ?_) ?_ ?_ n ⟨d, rfl, List.prefix_rfl⟩
    · have hu := htu ht hd
      exact hu.trans (huv hu.isTree (hu.straight ht hd List.prefix_rfl hnamed))
    · rintro p q ⟨e, rfl, hle⟩ hq
      rcases List.eq_nil_or_concat' e with rfl | ⟨e, name, rfl⟩
      · rw [Location.parent?_path_nil] at hq
        nomatch hq
      · rw [Location.parent?_path (hnamed.above hle)] at hq
        exact ⟨e, (Option.some.inj hq).symm, (List.prefix_append _ _).trans hle⟩
    · rintro t t' p ⟨e, rfl, hle⟩ h ht hd
      rcases List.eq_nil_or_concat' e with rfl | ⟨e, name, rfl⟩
      · rw [makeDirectory_path_nil] at h
        nomatch h
      · obtain ⟨-, hdir, hlen, hnone, rfl⟩ := (hd.of_isPrefix
          ((List.prefix_append _ _).trans hle)).makeDirectory_path (hnamed.above hle) h
        exact (Extended.put ht hdir ((hnamed.above hle) _ (by simp)) hlen hnone).mono hle
  exact hall ht hd

theorem makeDirectories_extended (ht : t.IsTree) (hnamed : d.Named) (hd : t.Straight d) :
    Extended d t (t.makeDirectories d.path).2 :=
  makeDirectories_go_extended _ ht hnamed hd

/-! ## Putting a file in -/

theorem replaceFile_eq_ok {p : Path} (h : t.replaceFile p text = .ok t') :
    p.text.toList.getLast? ≠ some '/' ∧ ∃ d name, t.EntryAt p d name ∧
      t.get? (d ++ [name]) ≠ some .directory ∧ t' = t.put (d ++ [name]) (.file (.text text)) := by
  unfold replaceFile at h
  cases hparent : p.parent? with
  | none =>
    rw [hparent] at h
    nomatch h
  | some parent =>
    rw [hparent] at h
    simp only [throw_bind] at h
    split at h
    · nomatch h
    split at h
    · nomatch h
    rcases hentry : t.entryOf p with cause | ⟨d, _ | name⟩
    · rw [hentry, error_bind] at h
      nomatch h
    · rw [hentry, ok_bind] at h
      nomatch h
    · rw [hentry, ok_bind] at h
      simp only at h
      split at h
      · nomatch h
      rename_i hslash
      split at h
      · nomatch h
      rename_i hnot
      exact ⟨hslash, d, name, entryOf_eq_ok hentry, hnot, (Except.ok.inj h).symm⟩

theorem replaceFile_path_eq_ok (hnamed : Location.Named (d ++ [name]))
    (h : t.replaceFile (Location.path (d ++ [name])) text = .ok t') :
    Allowed (Location.path (d ++ [name])) ∧ ∃ m, ∃ n ≤ maxLinks, Leads t n [] d m ∧
      t.get? m = some .directory ∧ Text.byteLength name.toList ≤ maxName ∧
      t.get? (m ++ [name]) ≠ some .directory ∧
      t' = t.put (m ++ [name]) (.file (.text text)) := by
  obtain ⟨-, m, last, hentry, hnot, rfl⟩ := replaceFile_eq_ok h
  obtain ⟨rfl, n, hn, hleads⟩ := hentry.leads_path hnamed
  exact ⟨hentry.allowed, m, n, hn, hleads, hentry.directory, hentry.short, hnot, rfl⟩

theorem Straight.replaceFile_path (hd : t.Straight d) (hnamed : Location.Named (d ++ [name]))
    (h : t.replaceFile (Location.path (d ++ [name])) text = .ok t') :
    Allowed (Location.path (d ++ [name])) ∧ t.get? d = some .directory ∧
      Text.byteLength name.toList ≤ maxName ∧ t.get? (d ++ [name]) ≠ some .directory ∧
      t' = t.put (d ++ [name]) (.file (.text text)) := by
  obtain ⟨hallowed, m, n, hn, hleads, hdir, hlen, hnot, rfl⟩ := replaceFile_path_eq_ok hnamed h
  obtain rfl := hd.eq_of_leads_above hnamed hallowed hn hleads hdir
  exact ⟨hallowed, hdir, hlen, hnot, rfl⟩

theorem replaceFile_path_nil (t : FileTree) (text : String) :
    t.replaceFile (Location.path []) text = .error .noParent := by
  unfold replaceFile
  rw [Location.parent?_path_nil]
  rfl

/-! ## When a file can be put in -/

/-- Whether a file can be put at a place: what is there above it are directories, the system takes
its names and its path, and it is no directory itself. -/
structure Writable (t : FileTree) (r : Location) : Prop where
  ne_nil : r ≠ []
  above : ∀ c, c <+: r.dropLast → t.get? c = none ∨ t.get? c = some .directory
  short : ∀ s ∈ r, Text.byteLength s.toList ≤ maxName
  allowed : Allowed r.path
  /-- There is room for the name of a temporary file beside it. -/
  room : ((Location.path r.dropLast).join temporaryName).isTooLong = false
  not_directory : t.get? r ≠ some .directory

theorem straight_of_above (h : ∀ c, c <+: d → t.get? c = none ∨ t.get? c = some .directory) :
    t.Straight d := by
  intro c hc target htarget
  rcases h c hc with hnone | hdir
  · rw [hnone] at htarget
    nomatch htarget
  · rw [hdir] at htarget
    nomatch htarget

theorem entryOf_path_of_leads {n : Nat} (hnamed : Location.Named (d ++ [name]))
    (hallowed : Allowed (Location.path (d ++ [name])))
    (hlen : Text.byteLength name.toList ≤ maxName) (hn : n ≤ maxLinks) (h : Leads t n [] d m)
    (hdir : t.get? m = some .directory) :
    t.entryOf (Location.path (d ++ [name])) = .ok (m, some name) := by
  have hname := hnamed name (by simp)
  unfold entryOf
  rw [reverse_names_path hnamed, startOf_of_isAbsolute (Location.isAbsolute_path _)]
  simp only [hallowed.1, hallowed.2.1, hname.2.1, hname.2.2, List.reverse_reverse, decide_false,
    Bool.or_false, Bool.false_eq_true, if_false, h.follow_eq_ok hn, ok_bind, hdir, ne_eq,
    not_true_eq_false, Nat.not_lt.2 hlen]
  rfl

theorem entryOf_path_of_directory (ht : t.IsTree) (hnamed : Location.Named (d ++ [name]))
    (hallowed : Allowed (Location.path (d ++ [name])))
    (hlen : Text.byteLength name.toList ≤ maxName) (hdir : t.get? d = some .directory) :
    t.entryOf (Location.path (d ++ [name])) = .ok (d, some name) :=
  entryOf_path_of_leads hnamed hallowed hlen (Nat.zero_le _)
    (ht.reached (holds_of_directory hdir)).leads hdir

theorem entryOf_path_of_error {cause : IoError} (hnamed : Location.Named (d ++ [name]))
    (hallowed : Allowed (Location.path (d ++ [name])))
    (h : t.follow maxLinks [] d = .error cause) :
    t.entryOf (Location.path (d ++ [name])) = .error cause := by
  unfold entryOf
  rw [reverse_names_path hnamed, startOf_of_isAbsolute (Location.isAbsolute_path _)]
  simp only [hallowed.1, hallowed.2.1, List.reverse_reverse, Bool.false_eq_true, if_false, h,
    error_bind]

/-- Names that spell a missing place below directories lead to nothing. -/
theorem follow_of_missing (ht : t.IsTree) (hnamed : d.Named)
    (hshort : ∀ s ∈ d, Text.byteLength s.toList ≤ maxName)
    (habove : ∀ c, c <+: d → t.get? c = none ∨ t.get? c = some .directory)
    (hnone : t.get? d = none) (k : Nat) : t.follow k [] d = .error .notFound := by
  induction d using List.reverseRecOn with
  | nil =>
    rw [t.get?_nil] at hnone
    nomatch hnone
  | append_singleton e name ih =>
    have he : e <+: e ++ [name] := List.prefix_append _ _
    have hname := hnamed name (by simp)
    rcases habove e he with henone | hedir
    · exact follow_append_of_error (ih (hnamed.above he)
        (fun s hs => hshort s (List.mem_append_left _ hs))
        (fun c hc => habove c (hc.trans he)) henone) _
    · rw [(ht.reached (holds_of_directory hedir)).leads.follow_append [name] (Nat.zero_le k)]
      exact follow_cons_of_missing hedir hname.2.1 hname.2.2 (hshort name (by simp)) hnone

theorem makeDirectory_path_of_missing (ht : t.IsTree) (hnamed : Location.Named (d ++ [name]))
    (hallowed : Allowed (Location.path (d ++ [name])))
    (hlen : Text.byteLength name.toList ≤ maxName) (hdir : t.get? d = some .directory)
    (hnone : t.get? (d ++ [name]) = none) :
    t.makeDirectory (Location.path (d ++ [name])) =
      .ok (t.put (d ++ [name]) .directory) := by
  unfold makeDirectory
  rw [entryOf_path_of_directory ht hnamed hallowed hlen hdir, ok_bind]
  simp only [hnone, Option.isSome_none, Bool.false_eq_true, if_false]
  rfl

/-- Directories can be made down to a place if what is there on the way are directories. -/
theorem makeDirectories_go_of_above {n : Nat} (hn : d.length < n) (ht : t.IsTree)
    (hnamed : d.Named) (hshort : ∀ s ∈ d, Text.byteLength s.toList ≤ maxName)
    (hallowed : Allowed d.path)
    (habove : ∀ c, c <+: d → t.get? c = none ∨ t.get? c = some .directory) :
    ∃ u, makeDirectories.go n t d.path = (.ok (), u) ∧ u.get? d = some .directory := by
  induction n generalizing t d with
  | zero => exact absurd hn (Nat.not_lt_zero _)
  | succ n ih =>
    rw [makeDirectories.go, if_neg d.path_text_ne]
    rcases List.eq_nil_or_concat' d with rfl | ⟨e, name, rfl⟩
    · refine ⟨t, ?_, t.get?_nil⟩
      simp only [makeDirectory_path_nil, isDirectory_path ht hallowed t.get?_nil, if_true]
    have he : e <+: e ++ [name] := List.prefix_append _ _
    have hlen := hshort name (by simp)
    rcases habove e he with henone | hedir
    · have heallowed := hallowed.of_isPrefix (Location.path_text_ne e)
        (Location.path_prefix_path he)
      have heshort : ∀ s ∈ e, Text.byteLength s.toList ≤ maxName :=
        fun s hs => hshort s (List.mem_append_left _ hs)
      have heabove : ∀ c, c <+: e → t.get? c = none ∨ t.get? c = some .directory :=
        fun c hc => habove c (hc.trans he)
      have hentry : t.makeDirectory (Location.path (e ++ [name])) = .error .notFound := by
        unfold makeDirectory
        rw [entryOf_path_of_error hnamed hallowed
          (follow_of_missing ht (hnamed.above he) heshort heabove henone _), error_bind]
      obtain ⟨u, hu, hudir⟩ := ih (by simpa using hn) ht (hnamed.above he) heshort heallowed heabove
      have hextended := makeDirectories_go_extended n ht (hnamed.above he)
        (straight_of_above heabove)
      rw [hu] at hextended
      have hnone : u.get? (e ++ [name]) = none := by
        have htnone : t.get? (e ++ [name]) = none :=
          ht.below (by rw [henone]; nofun) he (by simp)
        rcases hextended.get? (e ++ [name]) with heq | ⟨-, -, hle⟩
        · rw [heq, htnone]
        · exact absurd hle.length_le (by simp)
      refine ⟨u.put (e ++ [name]) .directory, ?_, by simp [get?_put]⟩
      simp only [hentry, Location.parent?_path hnamed, hu,
        makeDirectory_path_of_missing hextended.isTree hnamed hallowed hlen hudir hnone]
    · rcases habove _ List.prefix_rfl with hnone | hdir
      · refine ⟨t.put (e ++ [name]) .directory, ?_, by simp [get?_put]⟩
        simp only [makeDirectory_path_of_missing ht hnamed hallowed hlen hedir hnone]
      · refine ⟨t, ?_, hdir⟩
        have hmake : t.makeDirectory (Location.path (e ++ [name])) = .error .alreadyExists := by
          unfold makeDirectory
          rw [entryOf_path_of_directory ht hnamed hallowed hlen hedir, ok_bind]
          simp only [hdir, Option.isSome_some, if_true]
          rfl
        simp only [hmake, isDirectory_path ht hallowed hdir, if_true]

/-- Replacing a file in a directory fails only for want of room for a temporary name. -/
theorem replaceFile_path_of_leads {n : Nat} (hnamed : Location.Named (d ++ [name]))
    (hallowed : Allowed (Location.path (d ++ [name])))
    (hlen : Text.byteLength name.toList ≤ maxName) (hn : n ≤ maxLinks) (h : Leads t n [] d m)
    (hdir : t.get? m = some .directory) (hnot : t.get? (m ++ [name]) ≠ some .directory) :
    t.replaceFile (Location.path (d ++ [name])) text =
      if ((Location.path d).join temporaryName).isTooLong then
        .error (.temporaryFile .nameTooLong)
      else .ok (t.put (m ++ [name]) (.file (.text text))) := by
  have hdl : d <+: d ++ [name] := List.prefix_append _ _
  have hlocate : t.locate (Location.path d) = .ok m :=
    (locate_path_eq_ok_iff (hnamed.above hdl)).2
      ⟨hallowed.of_isPrefix (Location.path_text_ne d) (Location.path_prefix_path hdl), n, hn, h⟩
  unfold replaceFile takesFile
  rw [Location.parent?_path hnamed]
  simp only [Location.path_text_ne d, if_false, hlocate, ok_bind, hdir, ne_eq, not_true_eq_false]
  by_cases hroom : ((Location.path d).join temporaryName).isTooLong = true
  · simp only [hroom, if_true]
    rfl
  · simp only [hroom, Bool.false_eq_true, if_false, hallowed.1, ok_bind,
      entryOf_path_of_leads hnamed hallowed hlen hn h hdir,
      Location.getLast?_path hnamed (by simp), hnot]
    rfl

theorem replaceFile_path_of_directory (ht : t.IsTree) (hnamed : Location.Named (d ++ [name]))
    (hallowed : Allowed (Location.path (d ++ [name])))
    (hlen : Text.byteLength name.toList ≤ maxName)
    (hroom : ((Location.path d).join temporaryName).isTooLong = false)
    (hdir : t.get? d = some .directory) (hnot : t.get? (d ++ [name]) ≠ some .directory) :
    t.replaceFile (Location.path (d ++ [name])) text =
      .ok (t.put (d ++ [name]) (.file (.text text))) := by
  rw [replaceFile_path_of_leads hnamed hallowed hlen (Nat.zero_le _)
    (ht.reached (holds_of_directory hdir)).leads hdir hnot, hroom, if_neg Bool.false_ne_true]

theorem replaceFile_room (hnamed : Location.Named (d ++ [name]))
    (h : t.replaceFile (Location.path (d ++ [name])) text = .ok t') :
    ((Location.path d).join temporaryName).isTooLong = false := by
  unfold replaceFile at h
  rw [Location.parent?_path hnamed] at h
  simp only [throw_bind] at h
  cases htakes : t.takesFile (Location.path d) with
  | error cause =>
    rw [htakes] at h
    nomatch h
  | ok _ =>
    unfold takesFile at htakes
    simp only [Location.path_text_ne d, if_false, throw_bind] at htakes
    split at htakes
    · nomatch htakes
    · rename_i hroom
      simpa using hroom

/-- At most the directories above `r` and a file at `r` are new. -/
structure Touched (r : Location) (t t' : FileTree) : Prop where
  isTree : t'.IsTree
  current : t'.current = t.current
  get? : ∀ l, t'.get? l = t.get? l ∨
    (t.get? l = none ∧ t'.get? l = some .directory ∧ l <+: r) ∨
    (l = r ∧ t.get? l ≠ some .directory ∧ ∃ c, t'.get? l = some (.file c))

theorem Touched.refl (ht : t.IsTree) : Touched r t t := ⟨ht, rfl, fun _ => .inl rfl⟩

/-- Where something stands, what can be new is a file in its place. -/
theorem Touched.rewritten (h : Touched r t t') (ht : t.IsTree) (hthere : t.get? r ≠ none) :
    Rewritten t t' ∧ ∀ l, l ≠ r → t'.get? l = t.get? l := by
  have hsame : ∀ l, l ≠ r → t'.get? l = t.get? l := by
    intro l hl
    rcases h.get? l with heq | ⟨hnone, -, hle⟩ | ⟨heq, -, -⟩
    · exact heq
    · exact nomatch hnone.symm.trans (ht.above hthere hle hl)
    · exact absurd heq hl
  refine ⟨⟨h.current, fun l => ?_⟩, hsame⟩
  by_cases hl : l = r
  · subst hl
    rcases h.get? l with heq | ⟨hnone, -, -⟩ | ⟨-, hdir, hfile⟩
    · exact .inl heq
    · exact absurd hnone hthere
    · exact .inr ⟨hfile, hdir, hthere⟩
  · exact .inl (hsame l hl)

/-- Above a directory that was made there was nothing or a directory. -/
theorem Extended.above_of_directory {c : Location} (h : Extended d t u)
    (hdir : u.get? d = some .directory) (hc : c <+: d) :
    t.get? c = none ∨ t.get? c = some .directory := by
  by_cases hnone : t.get? c = none
  · exact .inl hnone
  · refine .inr ?_
    rw [← h.get?_of_ne_none hnone]
    by_cases hcd : c = d
    · exact hcd ▸ hdir
    · exact h.isTree.above (by rw [hdir]; nofun) hc hcd

theorem Extended.touched (h : Extended d t t') (hdr : d <+: r) : Touched r t t' := by
  refine ⟨h.isTree, h.current, fun l => ?_⟩
  rcases h.get? l with heq | ⟨hnone, hdir, hl⟩
  · exact .inl heq
  · exact .inr (.inl ⟨hnone, hdir, hl.trans hdr⟩)

/-- A file put below the new directories. -/
theorem Extended.touched_put (h : Extended d t u) (hdir : u.get? d = some .directory)
    (hname : IsName name) (hlen : Text.byteLength name.toList ≤ maxName)
    (hnot : u.get? (d ++ [name]) ≠ some .directory) (c : Contents) :
    Touched (d ++ [name]) t (u.put (d ++ [name]) (.file c)) := by
  refine ⟨h.isTree.put hdir hname hlen fun heq => absurd heq hnot, h.current, fun l => ?_⟩
  rw [get?_put u (by simp)]
  split
  · rename_i heq
    subst heq
    refine .inr (.inr ⟨rfl, fun hdirectory => hnot ?_, c, rfl⟩)
    rw [h.get?_of_ne_none (by rw [hdirectory]; nofun), hdirectory]
  · rcases h.get? l with heq | ⟨hnone, hdir, hl⟩
    · exact .inl heq
    · exact .inr (.inl ⟨hnone, hdir, hl.trans (List.prefix_append _ _)⟩)

end FileTree

open FileTree

namespace FileEdit

variable {t : FileTree} {e : FileEdit} {d r : Location} {name : String}

theorem install_path_nil (he : e.file = Location.path []) :
    e.install t = (.error (.io (Location.path []) .noParent), t) := by
  simp only [install, makeParents, write, he, Location.parent?_path_nil, replaceFile_path_nil]

/-- Installing an edit makes directories and then either fails or puts the file in. -/
theorem install_path (ht : t.IsTree) (hnamed : Location.Named (d ++ [name]))
    (hd : t.Straight d) (he : e.file = Location.path (d ++ [name])) :
    ∃ u, Extended d t u ∧ ((∃ cause, e.install t = (.error cause, u)) ∨
      Allowed e.file ∧ u.get? d = some .directory ∧ Text.byteLength name.toList ≤ maxName ∧
        u.get? (d ++ [name]) ≠ some .directory ∧
        e.install t = (.ok (.applied (Text.byteLength e.after.toList)),
          u.put (d ++ [name]) (.file (.text e.after)))) := by
  have hdl : d <+: d ++ [name] := List.prefix_append _ _
  have hextended := makeDirectories_extended ht (hnamed.above hdl) hd
  simp only [install, makeParents, write, he, Location.parent?_path hnamed]
  cases hmake : t.makeDirectories (Location.path d) with
  | mk result u =>
    rw [hmake] at hextended
    refine ⟨u, hextended, ?_⟩
    cases result with
    | error cause => exact .inl ⟨_, rfl⟩
    | ok _ =>
      cases hreplace : u.replaceFile (Location.path (d ++ [name])) e.after with
      | error cause => exact .inl ⟨.io (Location.path (d ++ [name])) cause, by simp [hreplace]⟩
      | ok t' =>
        have hstraight := hextended.straight ht hd List.prefix_rfl (hnamed.above hdl)
        obtain ⟨hallowed, hdir, hlen, hnot, rfl⟩ := hstraight.replaceFile_path hnamed hreplace
        exact .inr ⟨hallowed, hdir, hlen, hnot, by simp [hreplace]⟩

theorem length_lt_pieces_path (hd : d.Named) : d.length < (Location.path d).pieces.length := by
  by_cases hne : d = []
  · simp [hne, Location.pieces_path_nil]
  · simp [Location.pieces_path hd hne]

/-- A file that can be put in is put in. -/
theorem install_of_writable (ht : t.IsTree) (hnamed : r.Named) (hr : t.Writable r)
    (he : e.file = r.path) : ∃ u, Extended r.dropLast t u ∧
      u.get? r.dropLast = some .directory ∧ u.get? r ≠ some .directory ∧
      e.install t = (.ok (.applied (Text.byteLength e.after.toList)),
        u.put r (.file (.text e.after))) := by
  obtain ⟨d, name, rfl⟩ := (List.eq_nil_or_concat' r).resolve_left hr.ne_nil
  have hdl : d <+: d ++ [name] := List.prefix_append _ _
  have habove := hr.above
  have hroom := hr.room
  rw [List.dropLast_concat] at habove hroom ⊢
  obtain ⟨u, hu, hudir⟩ := makeDirectories_go_of_above (length_lt_pieces_path (hnamed.above hdl)) ht
    (hnamed.above hdl) (fun s hs => hr.short s (List.mem_append_left _ hs))
    (hr.allowed.of_isPrefix (Location.path_text_ne d) (Location.path_prefix_path hdl)) habove
  have hextended := makeDirectories_extended ht (hnamed.above hdl) (straight_of_above habove)
  rw [makeDirectories, hu] at hextended
  have hnot : u.get? (d ++ [name]) ≠ some .directory := by
    rcases hextended.get? (d ++ [name]) with heq | ⟨-, -, hle⟩
    · exact heq ▸ hr.not_directory
    · exact absurd hle.length_le (by simp)
  refine ⟨u, hextended, hudir, hnot, ?_⟩
  simp only [install, makeParents, write, he, Location.parent?_path hnamed, makeDirectories, hu,
    replaceFile_path_of_directory hextended.isTree hnamed hr.allowed (hr.short name (by simp)) hroom
      hudir hnot]

theorem room_of_install {o : EditOutcome} (hnamed : Location.Named (d ++ [name]))
    (he : e.file = Location.path (d ++ [name])) (h : (e.install t).1 = .ok o) :
    ((Location.path d).join temporaryName).isTooLong = false := by
  simp only [install, makeParents, write, he, Location.parent?_path hnamed] at h
  cases hmake : t.makeDirectories (Location.path d) with
  | mk result v =>
    rw [hmake] at h
    cases result with
    | error cause => nomatch h
    | ok _ =>
      cases hreplace : v.replaceFile (Location.path (d ++ [name])) e.after with
      | error cause => simp [hreplace] at h
      | ok t' => exact replaceFile_room hnamed hreplace

/-- A file that was put in could be put in. -/
theorem writable_of_install {o : EditOutcome} (ht : t.IsTree) (hnamed : r.Named)
    (hr : t.Straight r.dropLast) (he : e.file = r.path) (h : (e.install t).1 = .ok o) :
    t.Writable r := by
  rcases List.eq_nil_or_concat' r with rfl | ⟨d, name, rfl⟩
  · rw [install_path_nil he] at h
    nomatch h
  rw [List.dropLast_concat] at hr
  obtain ⟨u, hu, ⟨cause, hinstall⟩ | ⟨hallowed, hdir, hlen, hnot, -⟩⟩ :=
    install_path ht hnamed hr he
  · rw [hinstall] at h
    nomatch h
  exact {
    ne_nil := by simp
    above := by
      rw [List.dropLast_concat]
      exact fun c hc => hu.above_of_directory hdir hc
    short := by
      intro s hs
      rcases List.mem_append.1 hs with hs | hs
      · exact (hu.isTree.named (by rw [hdir]; nofun) s hs).2
      · exact List.mem_singleton.1 hs ▸ hlen
    allowed := he ▸ hallowed
    room := by
      rw [List.dropLast_concat]
      exact room_of_install hnamed he h
    not_directory := by
      intro hdirectory
      rw [hu.get?_of_ne_none (by rw [hdirectory]; nofun)] at hnot
      exact hnot hdirectory }

theorem install_touched (ht : t.IsTree) (hnamed : r.Named) (hr : t.Straight r.dropLast)
    (he : e.file = r.path) : Touched r t (e.install t).2 := by
  rcases List.eq_nil_or_concat' r with rfl | ⟨d, name, rfl⟩
  · rw [install_path_nil he]
    exact .refl ht
  · rw [List.dropLast_concat] at hr
    obtain ⟨u, hu, ⟨cause, h⟩ | ⟨-, hdir, hlen, hnot, h⟩⟩ := install_path ht hnamed hr he
    · rw [h]
      exact hu.touched (List.prefix_append _ _)
    · rw [h]
      exact hu.touched_put hdir (hnamed name (by simp)) hlen hnot _

/-- Applying an edit fails, finds its work done, or installs the new text. -/
theorem apply_cases (e : FileEdit) (t : FileTree) :
    (∃ cause, e.apply t = (.error cause, t)) ∨
    (e.apply t = (.ok .alreadyApplied, t) ∧ currentText t e.file = .ok (some e.after)) ∨
    (e.apply t = e.install t ∧ currentText t e.file = .ok e.before ∧ e.before ≠ some e.after) := by
  unfold apply
  cases hcurrent : currentText t e.file with
  | error cause => exact .inl ⟨cause, rfl⟩
  | ok current =>
    by_cases hdone : current = some e.after
    · exact .inr (.inl ⟨by simp [hdone], by rw [hdone]⟩)
    · simp only [hdone, if_false]
      cases hbefore : e.before with
      | none =>
        cases current with
        | none => exact .inr (.inr ⟨rfl, rfl, nofun⟩)
        | some found => exact .inl ⟨_, rfl⟩
      | some expected =>
        cases current with
        | none => exact .inl ⟨_, rfl⟩
        | some found =>
          by_cases heq : expected = found
          · subst heq
            exact .inr (.inr ⟨by simp, rfl, hdone⟩)
          · exact .inl ⟨.changed e.file, by simp [heq]⟩

/-- Applying an edit to a place on a straight way changes that place, and makes directories that are
missing above it. -/
theorem apply_touched (ht : t.IsTree) (hnamed : r.Named) (hr : t.Straight r.dropLast)
    (he : e.file = r.path) : Touched r t (e.apply t).2 := by
  rcases e.apply_cases t with ⟨cause, h⟩ | ⟨h, -⟩ | ⟨h, -⟩
  · rw [h]
    exact .refl ht
  · rw [h]
    exact .refl ht
  · rw [h]
    exact install_touched ht hnamed hr he

end FileEdit

end AndroidFonts
