/-
# `AndroidFonts.Proofs.Project.Acceptance` — what an accepted path is worth

`Guard.validate` sets names aside until what is left of a path leads somewhere, and puts them back
after the place it leads to.  The place it accepts is judged as text from then on, so it is worth
something only if it is its own place: nothing on the way to it may be a link that leads somewhere
(`FileTree.Settled`).  `settled_iff_resolveFrom_path` says that a settled place is exactly one that
resolves to itself, and `settled_of_resolveFrom` that every accepted place is settled unless the path
it was spelled by leads nowhere for one of three reasons: it is too long for the system, it goes
through too many links, or it asks with a slash or a dot at its end for a directory.  In these cases
a name that is set aside can be the name of a link.
-/
import AndroidFonts.Project.Guard
import AndroidFonts.Proofs.Tree.Shape

namespace AndroidFonts

open FileTree

namespace Guard

variable {t : FileTree} {l r : Location} {p : Path} {k : Nat}

/-! ## What resolving a path gives -/

/-- The cases of resolving: a path that leads somewhere or has no name to set aside is resolved as it
is, any other is its parent and its name. -/
theorem resolveFrom_cases (h : resolveFrom t k p = .ok r) (hp : p.isAbsolute = true) :
    (t.resolve p = .ok r ∧ (t.hasPath p = true ∨ k = 0 ∨ p.fileName? = none ∨ p.parent? = none)) ∨
    ∃ i q name l, k = i + 1 ∧ t.hasPath p = false ∧ Path.Popped p q name ∧
      p.fileName? = some name ∧ p.parent? = some q ∧
      resolveFrom t i q = .ok l ∧ r = l ++ [name] := by
  cases k with
  | zero => exact .inl ⟨h, .inr (.inl rfl)⟩
  | succ k =>
    rw [resolveFrom] at h
    cases hpath : t.hasPath p with
    | true => exact .inl ⟨by simpa [hpath] using h, .inl rfl⟩
    | false =>
      cases hname : p.fileName? with
      | none => exact .inl ⟨by simpa [hpath, hname] using h, .inr (.inr (.inl rfl))⟩
      | some name =>
        cases hq : p.parent? with
        | none => exact .inl ⟨by simpa [hpath, hname, hq] using h, .inr (.inr (.inr rfl))⟩
        | some q =>
          cases hl : resolveFrom t k q with
          | error e => simp [hpath, hname, hq, hl] at h
          | ok l =>
            refine .inr ⟨k, q, name, l, rfl, rfl, Path.popped hp hname hq, rfl, rfl, hl, ?_⟩
            simpa [hpath, hname, hq, hl] using h.symm

theorem named_of_resolveFrom (h : resolveFrom t k p = .ok r) (hp : p.isAbsolute = true) :
    r.Named := by
  induction k generalizing p r with
  | zero => exact (reached_of_resolve hp h).named
  | succ k ih =>
    rcases resolveFrom_cases h hp with ⟨hr, -⟩ | ⟨i, q, name, l, hk, -, hpop, -, -, hl, rfl⟩
    · exact (reached_of_resolve hp hr).named
    · obtain rfl := Nat.succ.inj hk
      exact (ih hl hpop.isAbsolute).concat hpop.isName

/-- A settled place resolves to itself. -/
theorem resolveFrom_path (h : t.Settled l) (hl : l.Named) (hk : l.length ≤ k) :
    resolveFrom t k l.path = .ok l := by
  induction l using List.reverseRecOn generalizing k with
  | nil =>
    have hroot := resolve_of_locate (h.locate_path hl t.hasPath_top)
    cases k with
    | zero => exact hroot
    | succ k => simp only [resolveFrom, t.hasPath_top, if_true, hroot]
  | append_singleton d name ih =>
    have hd : d <+: d ++ [name] := List.prefix_append _ _
    cases k with
    | zero => simp at hk
    | succ k =>
      rw [resolveFrom]
      split
      · rename_i hpath
        exact resolve_of_locate (h.locate_path hl hpath)
      · rw [Location.fileName?_path hl, Location.parent?_path hl]
        simp only [ih (h.of_isPrefix hd) (hl.above hd) (by simpa using hk)]

/-- A place that resolves to itself is settled. -/
theorem settled_of_resolveFrom_path (h : resolveFrom t k l.path = .ok l) (hl : l.Named) :
    t.Settled l := by
  induction k generalizing l with
  | zero => exact (reached_of_resolve l.isAbsolute_path h).settled
  | succ k ih =>
    rcases resolveFrom_cases h l.isAbsolute_path with
      ⟨hr, -⟩ | ⟨i, q, name, d, hk, hpath, -, -, hq, hd, rfl⟩
    · exact (reached_of_resolve l.isAbsolute_path hr).settled
    · obtain rfl := Nat.succ.inj hk
      rw [Location.parent?_path hl] at hq
      obtain rfl := Option.some.inj hq
      have hsettled := ih hd (hl.above (List.prefix_append _ _))
      intro e he target htarget
      rcases List.prefix_concat_iff.1 he with rfl | he
      · exact hpath
      · exact hsettled e he target htarget

/-! ## Where an accepted place can fail to be settled -/

/-- Whether a path asks, with a slash or a dot at its end, for a directory that is not the top. -/
def AsksForDirectory (p : Path) : Prop := p.steps.getLast? = some "." ∧ p.steps ≠ ["."]

/-- Where the place above leads to its own path, the name after it is looked up as the path does. -/
theorem leads_of_popped {q : Path} {name : String} {m : Location} {a b : Nat}
    (hpop : Path.Popped p q name) (hask : ¬ AsksForDirectory p) (hq : Leads t a [] q.steps l)
    (hname : Leads t b l [name] m) : Leads t (a + b) [] p.steps m := by
  obtain ⟨base, i, j, hbase, hsteps, hqsteps⟩ := hpop.steps
  have hj : j = 0 := by
    rcases Nat.eq_zero_or_pos j with hj | hj
    · exact hj
    · obtain ⟨j, rfl⟩ := Nat.exists_eq_succ_of_ne_zero hj.ne'
      refine absurd ⟨?_, fun hdot => ?_⟩ hask
      · rw [hsteps, List.replicate_succ', ← List.cons_append, ← List.append_assoc]
        exact List.getLast?_concat
      · have hmem : name ∈ p.steps := by simp [hsteps]
        rw [hdot] at hmem
        exact hpop.isName.2.1 (List.mem_singleton.1 hmem)
  have hlead : Leads t a [] base l := by
    rcases hqsteps with heq | ⟨rfl, heq⟩
    · exact heq ▸ hq
    · rw [heq, leads_stay_iff t.get?_nil] at hq
      exact hq
  subst hj
  have := (hlead.append (leads_dots hname.directory_of_cons i)).append hname
  simpa [hsteps] using this

/-- A path leads where its last name leads from what its parent leads to. -/
theorem split_of_popped {q : Path} {name : String} {m : Location} {n : Nat}
    (hpop : Path.Popped p q name) (h : Leads t n [] p.steps m) :
    ∃ i j c, n = i + j ∧ Leads t i [] q.steps c ∧ Leads t j c [name] m := by
  obtain ⟨base, u, v, -, hsteps, hqsteps⟩ := hpop.steps
  rw [hsteps, List.append_assoc, ← List.singleton_append (l := List.replicate v "."),
    ← List.append_assoc (List.replicate u ".")] at h
  obtain ⟨i, j, c, rfl, hbase, hrest⟩ := h.split
  obtain ⟨j, z, e, rfl, hlast, hdots⟩ := hrest.split
  obtain ⟨y, j, c', rfl, hdots', hname⟩ := hlast.split
  obtain ⟨rfl, rfl⟩ := eq_of_leads_dots hdots
  obtain ⟨rfl, rfl⟩ := eq_of_leads_dots hdots'
  refine ⟨i, j, c', by omega, ?_, hname⟩
  rcases hqsteps with heq | ⟨rfl, heq⟩
  · exact heq ▸ hbase
  · rw [heq, leads_stay_iff t.get?_nil]
    exact hbase

theorem nul_not_mem_of_popped {q : Path} {name : String} (hpop : Path.Popped p q name)
    (hq : '\x00' ∉ q.text.toList) (hr : '\x00' ∉ (Location.path (l ++ [name])).text.toList)
    (hnamed : Location.Named (l ++ [name])) : '\x00' ∉ p.text.toList := by
  obtain ⟨base, i, j, -, hsteps, hqsteps⟩ := hpop.steps
  rw [Path.mem_text_iff (by decide) (by decide)] at hq hr ⊢
  rintro ⟨s, hs, hnul⟩
  have hname : '\x00' ∉ name.toList := fun h =>
    hr ⟨name, by simp [Location.steps_path hnamed], h⟩
  have hdot : '\x00' ∉ ".".toList := by decide
  rw [hsteps] at hs
  simp only [List.mem_append, List.mem_cons, List.mem_replicate] at hs
  rcases hs with (hs | ⟨-, rfl⟩) | rfl | ⟨-, rfl⟩
  · rcases hqsteps with heq | ⟨rfl, -⟩
    · exact hq ⟨s, heq ▸ hs, hnul⟩
    · nomatch hs
  · exact hdot hnul
  · exact hname hnul
  · exact hdot hnul

/-- The limits of the system hold for what is left of a path when its name is set aside, and that
never asks for a directory. -/
theorem limits_of_popped {q : Path} {name : String} (hpop : Path.Popped p q name)
    (hlong : p.isTooLong = false)
    (hlinks : t.follow maxLinks [] p.steps ≠ .error .tooManyLinks) :
    q.isTooLong = false ∧ t.follow maxLinks [] q.steps ≠ .error .tooManyLinks ∧
      ¬ AsksForDirectory q := by
  obtain ⟨base, i, j, hbase, hsteps, hqsteps⟩ := hpop.steps
  refine ⟨isTooLong_of_isPrefix hpop.isPrefix hlong, ?_, ?_⟩
  · rcases hqsteps with heq | ⟨-, heq⟩
    · intro he
      rw [heq] at he
      refine hlinks ?_
      rw [hsteps, List.append_assoc]
      exact follow_append_of_error he _
    · rw [heq, follow_stay t.get?_nil, follow_nil]
      nofun
  · rintro ⟨hlast, hne⟩
    rcases hqsteps with heq | ⟨-, heq⟩
    · exact hbase (heq ▸ hlast)
    · exact hne heq

/-- Within the limits of the system, a path that asks for no directory resolves to a settled place,
and leads to that place if the path of the place leads anywhere. -/
theorem settled_of_resolveFrom (h : resolveFrom t k p = .ok r) (hp : p.isAbsolute = true)
    (hlong : p.isTooLong = false) (hlinks : t.follow maxLinks [] p.steps ≠ .error .tooManyLinks)
    (hask : ¬ AsksForDirectory p) :
    t.Settled r ∧ (t.hasPath r.path = true → t.locate p = .ok r) := by
  have hexists : ∀ {p : Path} {r : Location}, p.isAbsolute = true → t.resolve p = .ok r →
      p.isTooLong = false → t.Settled r ∧ (t.hasPath r.path = true → t.locate p = .ok r) := by
    intro p r hp hr hlong
    refine ⟨(reached_of_resolve hp hr).settled, fun _ => ?_⟩
    obtain ⟨⟨hnul, hempty⟩, hleads⟩ := resolve_eq_ok_iff.1 hr
    exact locate_eq_ok_iff.2 ⟨⟨hnul, hlong, hempty⟩, hleads⟩
  induction k generalizing p r with
  | zero => exact hexists hp h hlong
  | succ k ih =>
    have hnamed := named_of_resolveFrom h hp
    rcases resolveFrom_cases h hp with ⟨hr, -⟩ | ⟨i, q, name, l, hk, hpath, hpop, -, -, hl, rfl⟩
    · exact hexists hp hr hlong
    obtain rfl := Nat.succ.inj hk
    obtain ⟨hqlong, hqlinks, hqask⟩ := limits_of_popped hpop hlong hlinks
    obtain ⟨hsettled, hlocate⟩ := ih hl hpop.isAbsolute hqlong hqlinks hqask
    have hmissing : t.hasPath (Location.path (l ++ [name])) = false := by
      refine Bool.eq_false_iff.2 fun htrue => ?_
      obtain ⟨m, hm⟩ := hasPath_iff.1 htrue
      obtain ⟨⟨hnul, -, -⟩, b, hb, hleads⟩ := (locate_path_eq_ok_iff hnamed).1 hm
      have hq := hlocate (hasPath_of_isPrefix hnamed (List.prefix_append _ _) htrue)
      have hreached := reached_of_resolve hpop.isAbsolute (resolve_of_locate hq)
      obtain ⟨hqallowed, a, ha, hqleads⟩ := locate_eq_ok_iff.1 hq
      rw [startOf_of_isAbsolute hpop.isAbsolute] at hqleads
      obtain ⟨i, j, c, -, hl, hname⟩ := hleads.split
      obtain ⟨-, rfl⟩ := hreached.leads.unique hl
      have hway := leads_of_popped hpop hask hqleads hname
      by_cases hn : a + j ≤ maxLinks
      · have hallowed : Allowed p :=
          ⟨nul_not_mem_of_popped hpop hqallowed.1 hnul hnamed, hlong, fun he => by
            simp [Path.isAbsolute, he] at hp⟩
        rw [hasPath_iff.2 ⟨m, locate_eq_ok_iff.2
          ⟨hallowed, a + j, hn, startOf_of_isAbsolute (t := t) hp ▸ hway⟩⟩] at hpath
        cases hpath
      · exact hlinks (hway.follow_eq_tooManyLinks (Nat.lt_of_not_le hn))
    refine ⟨fun e he target htarget => ?_, fun htrue => ?_⟩
    · rcases List.prefix_concat_iff.1 he with rfl | he
      · exact hmissing
      · exact hsettled e he target htarget
    · rw [hmissing] at htrue
      cases htrue

/-! ## Accepted places -/

/-- The path that is resolved for a path of a project. -/
def spelling (g : Guard) (p : Path) : Path := g.root.path.join p.text

theorem isAbsolute_spelling (g : Guard) (p : Path) : (g.spelling p).isAbsolute = true := by
  have hroot : g.root.path.text.toList.head? = some '/' := by
    simpa [Path.isAbsolute] using g.root.isAbsolute_path
  unfold spelling Path.join
  split
  · rename_i h
    simpa [g.root.path_text_ne] using h
  · split <;> simp [Path.isAbsolute, List.head?_append, hroot]

theorem check_eq_ok_iff {g : Guard} : g.check l = .ok r ↔ l = r ∧ g.root <+: r ∧
    ∀ d ∈ generatedDirectories, ¬ g.root ++ d <+: r := by
  unfold check
  by_cases hroot : g.root <+: l
  · have hbegins : g.root.isPrefixOf l = true := List.isPrefixOf_iff_prefix.2 hroot
    cases hfind : generatedDirectories.find? fun d => (g.root ++ d).isPrefixOf l with
    | none =>
      simp only [hbegins, Bool.not_true, Bool.false_eq_true, if_false, Except.ok.injEq]
      refine ⟨?_, fun h => h.1⟩
      rintro rfl
      refine ⟨rfl, hroot, fun d hd hle => ?_⟩
      exact List.find?_eq_none.1 hfind d hd (List.isPrefixOf_iff_prefix.2 hle)
    | some d =>
      simp only [hbegins, Bool.not_true, Bool.false_eq_true, if_false, reduceCtorEq, false_iff]
      rintro ⟨rfl, -, hd⟩
      have hle := List.find?_some hfind
      exact hd d (List.mem_of_find?_eq_some hfind) (List.isPrefixOf_iff_prefix.1 hle)
  · have hbegins : g.root.isPrefixOf l = false :=
      Bool.eq_false_iff.2 fun h => hroot (List.isPrefixOf_iff_prefix.1 h)
    simp only [hbegins, Bool.not_false, if_true, reduceCtorEq, false_iff]
    rintro ⟨rfl, h, -⟩
    exact hroot h

theorem validate_eq_ok_iff {g : Guard} : g.validate t p = .ok r ↔
    resolve t (g.spelling p) = .ok r ∧ g.check r = .ok r := by
  rw [validate, ← spelling]
  cases hres : resolve t (g.spelling p) with
  | error e => simp
  | ok l =>
    simp only [Except.ok.injEq]
    constructor
    · intro h
      obtain ⟨rfl, -⟩ := check_eq_ok_iff.1 h
      exact ⟨rfl, h⟩
    · rintro ⟨rfl, h⟩
      exact h

theorem spelling_path (g : Guard) (l : Location) : g.spelling l.path = l.path :=
  Location.join_path _ _

theorem length_le_pieces_path (hr : r.Named) : r.length ≤ r.path.pieces.length := by
  by_cases hne : r = []
  · simp [hne]
  · simp [Location.pieces_path hr hne]

/-- An accepted place is accepted again as its own path exactly if it is settled. -/
theorem validate_path_iff {g : Guard} (hr : r.Named) (hcheck : g.check r = .ok r) :
    g.validate t r.path = .ok r ↔ t.Settled r := by
  rw [validate_eq_ok_iff, spelling_path]
  constructor
  · exact fun h => settled_of_resolveFrom_path h.1 hr
  · exact fun h => ⟨resolveFrom_path h hr (length_le_pieces_path hr), hcheck⟩

/-- An accepted place lies in the project and has no dots.  It is accepted again as its own place,
and is what its path leads to if that leads anywhere, exactly if it is settled; and it is settled
unless the path it was spelled by leads nowhere because it is too long, goes through too many links
or asks for a directory. -/
theorem accepted_place {g : Guard} (h : g.validate t p = .ok r) :
    g.root <+: r ∧ (∀ s ∈ r, s ≠ "." ∧ s ≠ "..") ∧
    (((t.hasPath r.path = true → t.resolve r.path = .ok r) ∧ g.validate t r.path = .ok r) ↔
      t.Settled r) ∧
    (t.Settled r ∨ t.hasPath (g.spelling p) = false ∧
      ((g.spelling p).isTooLong = true ∨
        t.follow maxLinks [] (g.spelling p).steps = .error .tooManyLinks ∨
        AsksForDirectory (g.spelling p))) := by
  obtain ⟨hres, hcheck⟩ := validate_eq_ok_iff.1 h
  have habs := isAbsolute_spelling g p
  have hnamed := named_of_resolveFrom hres habs
  refine ⟨(check_eq_ok_iff.1 hcheck).2.1, fun s hs => (hnamed s hs).2, ?_, ?_⟩
  · rw [validate_path_iff hnamed hcheck]
    refine ⟨And.right, fun hs => ⟨fun hpath => ?_, hs⟩⟩
    exact resolve_of_locate (hs.locate_path hnamed hpath)
  · by_cases hpath : t.hasPath (g.spelling p) = true
    · left
      rcases resolveFrom_cases hres habs with ⟨hr, -⟩ | ⟨_, _, _, _, -, hfalse, -⟩
      · exact (reached_of_resolve habs hr).settled
      · rw [hpath] at hfalse
        nomatch hfalse
    · by_cases hlong : (g.spelling p).isTooLong = true
      · exact .inr ⟨by simpa using hpath, .inl hlong⟩
      · by_cases hlinks : t.follow maxLinks [] (g.spelling p).steps = .error .tooManyLinks
        · exact .inr ⟨by simpa using hpath, .inr (.inl hlinks)⟩
        · by_cases hask : AsksForDirectory (g.spelling p)
          · exact .inr ⟨by simpa using hpath, .inr (.inr hask)⟩
          · exact .inl (settled_of_resolveFrom hres habs (by simpa using hlong) hlinks hask).1

/-- A project with a link to a directory of its own, one to a file beside the project, and one that
leads nowhere. -/
def linkedProject : FileTree where
  nodes := [(["android"], .directory), (["android", "app"], .directory),
    (["android", "own"], .link ⟨"./app/"⟩), (["android", "file"], .link ⟨"../notes.txt"⟩),
    (["android", "lost"], .link ⟨"app/missing/"⟩), (["notes.txt"], .file (.text "notes"))]
  current := []

theorem accepted_place_through_links :
    (Guard.mk ["android"]).validate linkedProject ⟨"own/./lost//new.xml"⟩ =
      .ok ["android", "app", "lost", "new.xml"] ∧
    linkedProject.Settled ["android", "app", "lost", "new.xml"] := by
  have h : (Guard.mk ["android"]).validate linkedProject ⟨"own/./lost//new.xml"⟩ =
      .ok ["android", "app", "lost", "new.xml"] := by decide +kernel
  refine ⟨h, (accepted_place h).2.2.1.1 ⟨?_, ?_⟩⟩ <;> decide +kernel

/-- A slash at the end hides that a name is a link: the place of a link out of the project is
accepted, and is not accepted as itself. -/
theorem accepted_place_of_link :
    (Guard.mk ["android"]).validate linkedProject ⟨"file/"⟩ = .ok ["android", "file"] ∧
    linkedProject.resolve (Location.path ["android", "file"]) = .ok ["notes.txt"] ∧
    (Guard.mk ["android"]).validate linkedProject (Location.path ["android", "file"]) =
      .error (.outsideProject ["notes.txt"] ["android"]) := by
  decide +kernel

end Guard

end AndroidFonts
