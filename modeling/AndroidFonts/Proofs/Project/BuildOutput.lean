/-
# `AndroidFonts.Proofs.Project.BuildOutput` — which build output is kept from being written

The directories that a build fills are known to a guard by their names under the root of the project,
and an accepted place is one that begins with none of these names.  The names are not resolved.  Where
such a name is a link, the output of the build is at another place, its real one (`Guard.outputs`),
and of that place the names say something only if it is beside the project, or in a directory that
has one of them (`Guard.Covers`).

`output_refused` says what follows for every project.  An accepted place that really is in the output
is so for one of two reasons: the names do not cover the output, or the place is not its own real one
and was spelled by a path that leads nowhere (`Guard.Unresolved`).  And where the names do not cover
the output, places in it are accepted.  So the output is refused, however it is reached within the limits
of the system, exactly if the names cover it; the directories of these names they always cover
(`covers_generated`).
-/
import AndroidFonts.Proofs.Project.Acceptance

namespace AndroidFonts

open FileTree

namespace Guard

variable {g : Guard} {t : FileTree} {root p : Path} {l r : Location} {k : Nat}

/-! ## Real places -/

/-- The path of a place has a real place: what the longest part of it that exists leads to, with the
names that are left. -/
theorem exists_resolveFrom_path (hr : r.Named) (hk : r.length ≤ k) :
    ∃ m, resolveFrom t k r.path = .ok m := by
  have hexists : ∀ {l : Location}, t.hasPath l.path = true → ∃ m, t.resolve l.path = .ok m :=
    fun hpath => (hasPath_iff.1 hpath).imp fun _ => resolve_of_locate
  induction r using List.reverseRecOn generalizing k with
  | nil => exact ⟨[], resolveFrom_path (reached_nil t).settled hr hk⟩
  | append_singleton d name ih =>
    cases k with
    | zero => simp at hk
    | succ k =>
      rw [resolveFrom]
      split
      · rename_i hpath
        exact hexists hpath
      · obtain ⟨m, hm⟩ := ih (hr.above (List.prefix_append _ _)) (by simpa using hk)
        rw [Location.fileName?_path hr, Location.parent?_path hr]
        simp only [hm]
        exact ⟨m ++ [name], rfl⟩

/-- Whether a path of a project leads nowhere in one of the ways that hide links: it is too long for
the system, it goes through too many links, or it asks with a slash or a dot at its end for a
directory. -/
def Unresolved (g : Guard) (t : FileTree) (p : Path) : Prop :=
  t.hasPath (g.spelling p) = false ∧ ((g.spelling p).isTooLong = true ∨
    t.follow maxLinks [] (g.spelling p).steps = .error .tooManyLinks ∨
    AsksForDirectory (g.spelling p))

theorem settled_or_unresolved (h : resolve t (g.spelling p) = .ok r) :
    t.Settled r ∨ g.Unresolved t p := by
  have habs := isAbsolute_spelling g p
  rcases resolveFrom_cases h habs with ⟨hr, -⟩ | ⟨-, -, -, -, -, hpath, -⟩
  · exact .inl (reached_of_resolve habs hr).settled
  · refine or_iff_not_imp_right.2 fun hnot => ?_
    simp only [Unresolved, hpath, true_and, not_or, Bool.not_eq_true] at hnot
    obtain ⟨hlong, hlinks, hask⟩ := hnot
    exact (settled_of_resolveFrom h habs hlong hlinks hask).1

/-- The root of a guard is reached through directories, from the top or from where the system is. -/
theorem reached_of_ofRoot (h : ofRoot t root = .ok g)
    (hstart : root.isAbsolute = true ∨ t.Reached t.current) : t.Reached g.root := by
  unfold ofRoot at h
  cases hres : t.resolve root with
  | error e =>
    rw [hres] at h
    nomatch h
  | ok m =>
    rw [hres] at h
    obtain rfl := Except.ok.inj h
    obtain ⟨-, n, -, hleads⟩ := resolve_eq_ok_iff.1 hres
    refine hleads.reached ?_ fun s hs => Path.isStep_of_mem_steps hs
    unfold startOf
    split
    · exact reached_nil t
    · exact hstart.resolve_left ‹_›

/-! ## What the names of the output say -/

/-- The real places of the generated directories that exist. -/
def outputs (g : Guard) (t : FileTree) : List Location :=
  generatedDirectories.filterMap fun d => (t.resolve (Location.path (g.root ++ d))).toOption

theorem mem_outputs_iff : l ∈ g.outputs t ↔
    ∃ d ∈ generatedDirectories, t.resolve (Location.path (g.root ++ d)) = .ok l := by
  have hok : ∀ x : Except IoError Location, x.toOption = some l ↔ x = .ok l := by
    rintro (e | m)
    · exact iff_of_false nofun nofun
    · exact ⟨fun h => congrArg _ (Option.some.inj h), fun h => congrArg _ (Except.ok.inj h)⟩
  simp only [outputs, List.mem_filterMap, hok]

/-- Whether the names of the generated directories keep a place from being accepted, with all that is
in it: it is not above the project, and in the project only under one of these names. -/
def Covers (g : Guard) (l : Location) : Prop :=
  ¬ l <+: g.root ∧ (g.root <+: l → ∃ d ∈ generatedDirectories, g.root ++ d <+: l)

instance (g : Guard) (l : Location) : Decidable (g.Covers l) :=
  inferInstanceAs (Decidable (_ ∧ (_ → _)))

theorem covers_generated (g : Guard) : ∀ d ∈ generatedDirectories, g.Covers (g.root ++ d) := by
  refine fun d hd => ⟨fun habove => ?_, fun _ => ⟨d, hd, List.prefix_rfl⟩⟩
  have hne : d ≠ [] := by
    rintro rfl
    exact absurd hd (by decide)
  have hle := habove.length_le
  rw [List.length_append] at hle
  exact hne (List.length_eq_zero_iff.1 (by omega))

/-- Nothing that is accepted begins with a covered place. -/
theorem Covers.not_prefix (hl : g.Covers l) (h : g.check r = .ok r) : ¬ l <+: r := by
  intro hle
  obtain ⟨-, hroot, hnames⟩ := check_eq_ok_iff.1 h
  rcases List.prefix_or_prefix_of_prefix hroot hle with hbelow | habove
  · obtain ⟨d, hd, hdl⟩ := hl.2 hbelow
    exact hnames d hd (hdl.trans hle)
  · exact hl.1 habove

/-- In a place that is not covered something begins that is accepted: the place itself, or the root. -/
theorem exists_check_of_not_covers (h : ¬ g.Covers l) :
    (l <+: g.root ∧ g.check g.root = .ok g.root) ∨ g.check l = .ok l := by
  by_cases habove : l <+: g.root
  · refine .inl ⟨habove, check_eq_ok_iff.2 ⟨rfl, List.prefix_rfl, fun d hd => ?_⟩⟩
    exact (g.covers_generated d hd).1
  · simp only [Covers, habove, not_false_eq_true, true_and, not_forall, not_exists, not_and] at h
    obtain ⟨hroot, hnames⟩ := h
    exact .inr (check_eq_ok_iff.2 ⟨rfl, hroot, hnames⟩)

/-! ## Which output is refused -/

/-- An accepted place is really in the output of the build only if the names of the generated
directories do not cover that, or if the place is not its own real one and was spelled by a path that
leads nowhere; and where they do not cover it, places in it are accepted. -/
theorem output_refused (hroot : ofRoot t root = .ok g)
    (hstart : root.isAbsolute = true ∨ t.Reached t.current) :
    (∀ p r, g.validate t p = .ok r → ∃ m, resolve t r.path = .ok m ∧
      ∀ l ∈ g.outputs t, l <+: m → ¬ g.Covers l ∨ (m ≠ r ∧ g.Unresolved t p)) ∧
    ∀ l ∈ g.outputs t, ¬ g.Covers l →
      ∃ r, g.validate t r.path = .ok r ∧ resolve t r.path = .ok r ∧ l <+: r := by
  have hself : ∀ {r : Location}, t.Settled r → r.Named → resolve t r.path = .ok r :=
    fun hsettled hnamed => resolveFrom_path hsettled hnamed (length_le_pieces_path hnamed)
  constructor
  · intro p r h
    obtain ⟨hres, hcheck⟩ := validate_eq_ok_iff.1 h
    have hnamed := named_of_resolveFrom hres (isAbsolute_spelling g p)
    obtain ⟨m, hm⟩ := exists_resolveFrom_path (t := t) hnamed (length_le_pieces_path hnamed)
    refine ⟨m, hm, fun l _ hle => ?_⟩
    by_cases hsame : m = r
    · exact .inl fun hcovers => hcovers.not_prefix hcheck (hsame ▸ hle)
    · refine .inr ⟨hsame, (settled_or_unresolved hres).resolve_left fun hsettled => hsame ?_⟩
      exact Except.ok.inj (hm.symm.trans (hself hsettled hnamed))
  · intro l hl hcovers
    obtain ⟨d, -, hd⟩ := mem_outputs_iff.1 hl
    have haccepted : ∀ {r : Location}, t.Reached r → g.check r = .ok r →
        g.validate t r.path = .ok r ∧ resolve t r.path = .ok r := by
      intro r hr hcheck
      exact ⟨(validate_path_iff hr.named hcheck).2 hr.settled, hself hr.settled hr.named⟩
    rcases exists_check_of_not_covers hcovers with ⟨habove, hcheck⟩ | hcheck
    · obtain ⟨hvalid, hreal⟩ := haccepted (reached_of_ofRoot hroot hstart) hcheck
      exact ⟨g.root, hvalid, hreal, habove⟩
    · obtain ⟨hvalid, hreal⟩ := haccepted (reached_of_resolve (Location.isAbsolute_path _) hd) hcheck
      exact ⟨l, hvalid, hreal, List.prefix_rfl⟩

/-- A project with three kinds of build output: a directory of its own, a link to that, and a link to a
directory beside the project. -/
def builtProject : FileTree where
  nodes := [(["android"], .directory), (["android", "app"], .directory),
    (["android", "build"], .directory), (["android", ".gradle"], .link ⟨"build/"⟩),
    (["android", "app", "build"], .link ⟨"../../shared"⟩), (["shared"], .directory)]
  current := []

theorem output_refused_of_links : (Guard.mk ["android"]).outputs builtProject =
      [["android", "build"], ["shared"], ["android", "build"]] ∧
    ∃ r m, (Guard.mk ["android"]).validate builtProject ⟨"app/src/A.java"⟩ = .ok r ∧
      resolve builtProject r.path = .ok m ∧
      ∀ l ∈ (Guard.mk ["android"]).outputs builtProject, ¬ l <+: m := by
  have hroot : ofRoot builtProject ⟨"/android"⟩ = .ok ⟨["android"]⟩ := by decide +kernel
  have hvalid : (Guard.mk ["android"]).validate builtProject ⟨"app/src/A.java"⟩ =
      .ok ["android", "app", "src", "A.java"] := by decide +kernel
  have hcovers : ∀ l ∈ (Guard.mk ["android"]).outputs builtProject,
      (Guard.mk ["android"]).Covers l := by decide +kernel
  obtain ⟨m, hm, hout⟩ := (output_refused hroot (.inl rfl)).1 _ _ hvalid
  refine ⟨by decide +kernel, _, m, hvalid, hm, fun l hl hle => ?_⟩
  rcases hout l hl hle with hnot | ⟨hne, -⟩
  · exact hnot (hcovers l hl)
  · exact hne (Except.ok.inj (hm.symm.trans (by decide +kernel)))

/-- A project whose build output is a link to another directory of the project. -/
def redirectedProject : FileTree where
  nodes := [(["android"], .directory), (["android", "out"], .directory),
    (["android", "build"], .link ⟨"out"⟩)]
  current := []

/-- Build output behind a link in the project is accepted, through the link and by its own name. -/
theorem output_accepted : (Guard.mk ["android"]).outputs redirectedProject = [["android", "out"]] ∧
    ∀ p ∈ [Path.mk "build/x.java", ⟨"out/x.java"⟩],
      (Guard.mk ["android"]).validate redirectedProject p = .ok ["android", "out", "x.java"] ∧
      resolve redirectedProject (Location.path ["android", "out", "x.java"]) =
        .ok ["android", "out", "x.java"] := by
  decide +kernel

end Guard

end AndroidFonts
