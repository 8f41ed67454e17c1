/-
# `AndroidFonts.Proofs.Project.Renewal` — an accepted path once its file is there

A path is accepted for a place; then a file is put in at the path of that place, with directories
that were missing.  Afterwards more of the accepted path leads somewhere than before, and links may
have given way to files.  Still the path resolves to the same place
(`Guard.resolveFrom_of_installed`), whether it was within the limits of the system or not.

What makes this hold is that the place was reached by the write: of the names that were set aside when
the path was resolved, the first one is missing, or is a link that the path has no links left for, or
stands behind a path that is too long.  None of these changes, unless that name is the file itself.
-/
import AndroidFonts.Proofs.Project.Sources
import AndroidFonts.Proofs.Tree.Walk
import AndroidFonts.Proofs.Tree.Ways

namespace AndroidFonts

open FileTree FileEdit

namespace FileTree

variable {t t' : FileTree} {l : Location} {names : List String}

/-- Below something that is no directory nothing is read, and nothing is missing. -/
theorem directory_of_readText (hnamed : Location.Named (l ++ names)) (hne : names ≠ [])
    (hl : t.Reached l) (hread : (∃ s, t.readText (Location.path (l ++ names)) = .ok s) ∨
      t.readText (Location.path (l ++ names)) = .error .notFound) : t.get? l = some .directory := by
  obtain ⟨name, rest, rfl⟩ := List.exists_cons_of_ne_nil hne
  by_contra hdir
  have hlocate : ∃ cause, cause ≠ .notFound ∧
      t.locate (Location.path (l ++ name :: rest)) = .error cause := by
    by_cases hallowed : Allowed (Location.path (l ++ name :: rest))
    · refine ⟨.notDirectory, by simp, ?_⟩
      rw [FileTree.locate_path hnamed (by simp) hallowed, hl.leads.follow_append _ (Nat.zero_le _)]
      exact follow_cons_of_not_directory hdir
    · obtain ⟨cause, hcause, hall⟩ := locate_of_not_allowed (Location.path_text_ne _) hallowed
      exact ⟨cause, hcause, hall t⟩
  obtain ⟨cause, hcause, herror⟩ := hlocate
  rw [readText, herror, error_bind] at hread
  rcases hread with ⟨s, hs⟩ | hs
  · cases hs
  · exact hcause (Except.error.inj hs)

theorem Alike.hasPath_eq (h : Alike t t') (p : Path) : t'.hasPath p = t.hasPath p := by
  rw [hasPath, hasPath, h.locate_eq]

end FileTree

namespace Guard

variable {t t' u : FileTree} {k : Nat} {p : Path} {l d m r : Location} {name : String}
  {names : List String} {c : Contents}

/-- What files hold does not matter for where a path resolves to. -/
theorem resolveFrom_alike (h : Alike t t') (k : Nat) (p : Path) :
    resolveFrom t' k p = resolveFrom t k p := by
  induction k generalizing p with
  | zero => exact h.resolve_eq p
  | succ k ih => simp only [resolveFrom, h.hasPath_eq, h.resolve_eq, ih]

/-- A path is resolved by following some of its names and keeping the others, the first of which
cannot be followed. -/
theorem resolveFrom_split (hl : l.Named) (hk : l.length ≤ k)
    (h : resolveFrom t k l.path = .ok r) :
    ∃ a b d, l = a ++ b ∧ r = d ++ b ∧ t.locate (Location.path a) = .ok d ∧
      ∀ name rest, b = name :: rest → t.hasPath (Location.path (a ++ [name])) = false := by
  induction l using List.reverseRecOn generalizing k r with
  | nil =>
    rw [resolveFrom_of_locate t.locate_path_nil] at h
    obtain rfl := Except.ok.inj h
    exact ⟨[], [], [], rfl, rfl, t.locate_path_nil, by simp⟩
  | append_singleton l name ih =>
    by_cases hpath : t.hasPath (Location.path (l ++ [name])) = true
    · obtain ⟨d, hd⟩ := hasPath_iff.1 hpath
      rw [resolveFrom_of_locate hd] at h
      obtain rfl := Except.ok.inj h
      exact ⟨l ++ [name], [], d, (List.append_nil _).symm, (List.append_nil _).symm, hd, by simp⟩
    · cases k with
      | zero => simp at hk
      | succ k =>
        have hll : l <+: l ++ [name] := List.prefix_append _ _
        rw [resolveFrom, if_neg hpath, Location.fileName?_path hl, Location.parent?_path hl] at h
        cases hrest : resolveFrom t k (Location.path l) with
        | error cause =>
          simp only [hrest] at h
          cases h
        | ok r' =>
          simp only [hrest] at h
          obtain rfl := Except.ok.inj h
          obtain ⟨a, b, d, rfl, rfl, hd, hfirst⟩ := ih (hl.above hll) (by simpa using hk) hrest
          refine ⟨a, b ++ [name], d, List.append_assoc .., List.append_assoc .., hd, ?_⟩
          cases b with
          | nil =>
            rintro _ _ ⟨⟩
            rw [List.append_nil] at hpath
            exact Bool.eq_false_iff.2 hpath
          | cons first rest =>
            rintro _ _ ⟨⟩
            exact hfirst first rest rfl

/-- A path that leads to a file still does once the file was replaced. -/
theorem alike_of_installed (ht : t.IsTree) (hthere : t.Holds (d ++ [name]))
    (h : Installed t d name m u) : Alike t (u.put (m ++ [name]) (.file c)) := by
  obtain ⟨node, hnode, hlink⟩ := hthere
  have hdir := ht.directory d name (by rw [hnode]; nofun)
  obtain ⟨rfl, hcurrent, hsame⟩ := h.provided.eq_of_directory ht hdir
  refine ⟨hcurrent, fun l => ?_⟩
  rw [get?_put u (by simp), hsame]
  split
  · rename_i heq
    have hnot := h.not_directory
    rw [hsame] at hnot
    cases node with
    | directory => exact absurd hnode hnot
    | link target => exact absurd rfl (hlink target)
    | file c₀ => exact .inr ⟨⟨c₀, heq ▸ hnode⟩, c, rfl⟩
  · exact .inl rfl

/-- Putting a file in makes no links, and leaves none where the file is. -/
theorem link_of_installed {target : Path} (h : Installed t d name m u)
    (hl : (u.put (m ++ [name]) (.file c)).get? l = some (.link target)) :
    t.get? l = some (.link target) ∧ l ≠ m ++ [name] := by
  obtain ⟨a, b, c', n, -, -, -, -, -, -, hu, -⟩ := h.provided
  rw [get?_put u (by simp)] at hl
  split at hl
  · nomatch hl
  · rename_i hne
    refine ⟨?_, hne⟩
    rcases hu.get? l with heq | ⟨-, hdir, -⟩
    · exact heq.symm.trans hl
    · rw [hdir] at hl
      nomatch hl

/-- A name on the way to the file that led somewhere from its directory when the file had been put in
did so before, with as few links. -/
theorem leads_of_installed {t' : FileTree} {first : String} {rest ys : List String} {z : Location}
    {j : Nat} (ht : t.IsTree) (h : Installed t d name m u) (hr : t.Reached r)
    (hplace : d ++ [name] = r ++ first :: rest) (hnamed : Location.Named (d ++ [name]))
    (hthere : t.get? (r ++ [first]) ≠ none)
    (hkept : ∀ target, t.get? (r ++ [first]) = some (.link target) → r ++ [first] ≠ m ++ [name])
    (hways : KeepsWays t t') (hj : Leads t' j r (first :: ys) z) (hle : j ≤ maxLinks) :
    ∃ i ≤ j, ∃ z', Leads t i r [first] z' := by
  have hfirst : IsName first := hnamed first (hplace ▸ by simp)
  have hdir := ht.directory r first hthere
  obtain ⟨node, hnode⟩ := Option.ne_none_iff_exists'.1 hthere
  have hlen := (ht.isName r first hthere).2
  by_cases hlink : ∃ target, node = .link target
  · obtain ⟨target, rfl⟩ := hlink
    -- the link is not the file itself, so it was followed when the file was put in
    have hle' : r ++ [first] <+: d := by
      have hboth : r ++ [first] <+: d ++ [name] := ⟨rest, by rw [hplace]; simp⟩
      rcases List.prefix_concat_iff.1 hboth with heq | hle'
      · obtain ⟨rfl, -⟩ := List.append_inj' heq rfl
        obtain ⟨rfl, -⟩ := h.provided.eq_of_directory ht hdir
        exact absurd heq (hkept target hnode)
      · exact hle'
    obtain ⟨i, hi, z', hz', hz'dir⟩ := h.provided.leads_of_isPrefix ht hle' hthere
    obtain ⟨i₁, i₂, c', rfl, hc', hlast⟩ := hz'.split
    obtain ⟨rfl, rfl⟩ := hr.leads.unique hc'
    have hlast' := hways.leads hlast hz'dir hr (by omega)
      fun s hs => List.mem_singleton.1 hs ▸ hfirst.1
    rw [← List.singleton_append] at hj
    obtain ⟨j₁, j₂, c, rfl, hj₁, -⟩ := hj.split
    obtain ⟨rfl, -⟩ := hlast'.unique hj₁
    exact ⟨i₂, Nat.le_add_right _ _, z', hlast⟩
  · exact ⟨0, Nat.zero_le _, _, .down hdir hfirst.2.1 hfirst.2.2 hlen hnode
      (fun target heq => hlink ⟨target, heq⟩) .here⟩

/-- On the way to a link, the first name stood there before the file was put in, and it is not a link
in whose place the file went. -/
theorem first_of_link {first : String} {rest : List String} {target : Path} (ht : t.IsTree)
    (h : Installed t d name m u)
    (hlink : (u.put (m ++ [name]) (.file c)).get? (r ++ first :: rest) = some (.link target)) :
    t.get? (r ++ [first]) ≠ none ∧
      ∀ target, t.get? (r ++ [first]) = some (.link target) → r ++ [first] ≠ m ++ [name] := by
  obtain ⟨hlinked, hne⟩ := link_of_installed h hlink
  rcases rest with _ | ⟨x, rest⟩
  · exact ⟨by rw [hlinked]; nofun, fun _ _ => hne⟩
  · have hdir : t.get? (r ++ [first]) = some .directory :=
      ht.above (by rw [hlinked]; nofun) ⟨x :: rest, by simp⟩ (by simp)
    rw [hdir]
    exact ⟨nofun, fun _ hlink' => nomatch hlink'⟩

/-- A place that a path resolves to is resolved to again after a file was put in at its path. -/
theorem resolveFrom_of_installed (ht : t.IsTree) (hl : l.Named) (hk : l.length ≤ k)
    (hres : resolveFrom t k l.path = .ok (d ++ [name]))
    (hread : (∃ s, t.readText (Location.path (d ++ [name])) = .ok s) ∨
      t.readText (Location.path (d ++ [name])) = .error .notFound)
    (h : Installed t d name m u) :
    resolveFrom (u.put (m ++ [name]) (.file c)) k l.path = .ok (d ++ [name]) := by
  have hnamed := named_of_resolveFrom hres l.isAbsolute_path
  have hways := h.keepsWays (c := c) ht hnamed hread
  obtain ⟨a, b, r, rfl, hr, ha, hfirst⟩ := resolveFrom_split hl hk hres
  have hreached := reached_of_resolve (Location.isAbsolute_path a) (resolve_of_locate ha)
  rcases b with _ | ⟨first, rest⟩
  · rw [List.append_nil] at hr
    rw [resolveFrom_alike (alike_of_installed ht (hr ▸ hreached.holds) h), hres]
  have hnopath := hfirst first rest rfl
  rw [hr] at hread hnamed ⊢
  have hdir := directory_of_readText hnamed (by simp) hreached hread
  have haa : a <+: a ++ first :: rest := List.prefix_append _ _
  obtain ⟨hallowed, n, hn, hleads⟩ := (locate_path_eq_ok_iff (hl.above haa)).1 ha
  have hleads' := hways.leads hleads hdir (reached_nil t) hn
    fun s hs => (hl s (List.mem_append_left _ hs)).1
  refine resolveFrom_append hl ((locate_path_eq_ok_iff (hl.above haa)).2
    ⟨hallowed, n, hn, hleads'⟩) (fun ys hys hpath => ?_) (by simp at hk; simp; omega)
  -- as far as the names that were set aside can be followed now, no link is met
  obtain ⟨z, hz⟩ := hasPath_iff.1 hpath
  have hay : a ++ ys <+: a ++ first :: rest := (List.prefix_append_right_inj a).2 hys
  obtain ⟨hallowed', n', hn', hway⟩ := (locate_path_eq_ok_iff (hl.above hay)).1 hz
  obtain ⟨i, j, r', rfl, hi, hj⟩ := hway.split
  obtain ⟨rfl, rfl⟩ := hleads'.unique hi
  have hys' : Location.Named ys := fun s hs => hl s (hay.subset (List.mem_append_right _ hs))
  suffices hnolink : ∀ e, e <+: ys → ∀ target,
      (u.put (m ++ [name]) (.file c)).get? (r ++ e) ≠ some (.link target) by
    obtain ⟨-, rfl⟩ := hj.eq_append hys' hnolink
    exact hz
  intro e he target hlinked
  rcases e with _ | ⟨x, e⟩
  · obtain ⟨htlink, -⟩ := link_of_installed h hlinked
    rw [List.append_nil, hdir] at htlink
    nomatch htlink
  obtain ⟨ys, rfl⟩ : ∃ zs, ys = x :: zs := by
    obtain ⟨zs, rfl⟩ := he
    exact ⟨_, rfl⟩
  obtain rfl : x = first := (List.cons_prefix_cons.1 hys).1
  obtain ⟨hthere, hkept⟩ := first_of_link ht h hlinked
  obtain ⟨i, hij, z', hz'⟩ := leads_of_installed ht h hreached hr (hr ▸ hnamed) hthere hkept hways hj
    (by omega)
  have hax : a ++ [x] <+: a ++ x :: ys := ⟨ys, by simp⟩
  have hpath' := hasPath_iff.2 ⟨z', (locate_path_eq_ok_iff (hl.above (hax.trans hay))).2
    ⟨hallowed'.of_isPrefix (Location.path_text_ne _) (Location.path_prefix_path hax), _, by omega,
      hleads.append hz'⟩⟩
  rw [hnopath] at hpath'
  nomatch hpath'

/-- A file whose path leads to it afterwards was put in at its own place. -/
theorem touched_of_installed (hnamed : Location.Named (d ++ [name])) (h : Installed t d name m u)
    (hreached : (u.put (m ++ [name]) (.file c)).Reached (d ++ [name])) :
    m = d ∧ Touched (d ++ [name]) t (u.put (m ++ [name]) (.file c)) := by
  have hdir := hreached.above d (List.prefix_append _ _) (by simp)
  rw [get?_put u (by simp)] at hdir
  split at hdir
  · cases hdir
  · obtain ⟨a, b, c', n, -, -, -, -, -, -, hu, hm⟩ := h.provided
    obtain ⟨k, -, hleads, -⟩ := h.provided.leads (hnamed.above (List.prefix_append _ _))
    obtain ⟨-, rfl⟩ := (hu.isTree.reached (holds_of_directory hdir)).leads.unique hleads
    exact ⟨rfl, hu.touched_put hm (hnamed name (by simp)) h.short h.not_directory c⟩

/-- When a path has been written to and leads to its file, the paths beside it lead where they did.
The one thing that can have gone is a link that the path itself did not get through. -/
theorem locate_of_touched {dir z : Location} {x y : String} (ht : t.IsTree) (h : Touched r t t')
    (hx : Location.Named (dir ++ [x])) (hk : 1 ≤ k)
    (hres : resolveFrom t k (Location.path (dir ++ [x])) = .ok r)
    (hleads : t'.locate (Location.path (dir ++ [x])) = .ok r) (hy : Location.Named (dir ++ [y]))
    (hz : t.locate (Location.path (dir ++ [y])) = .ok z) :
    t'.locate (Location.path (dir ++ [y])) = .ok z := by
  obtain ⟨hallowed, n, hn, hway⟩ := (locate_path_eq_ok_iff hy).1 hz
  by_cases hlink : ∃ target, t.get? r = some (.link target)
  · obtain ⟨target, hlink⟩ := hlink
    obtain ⟨d, name, rfl⟩ := (List.eq_nil_or_concat' r).resolve_left fun hnil => by
      rw [hnil, t.get?_nil] at hlink
      cases hlink
    obtain ⟨hrewritten, hsame⟩ := h.rewritten ht (by rw [hlink]; nofun)
    obtain ⟨hallowed', n', hn', hway'⟩ := (locate_path_eq_ok_iff hx).1 hleads
    obtain ⟨i', j', e, rfl, hi', hj'⟩ := hway'.split
    obtain ⟨i, j, e', rfl, hi, hj⟩ := hway.split
    have hdir := hrewritten.leads hi' hj'.directory_of_cons
    obtain ⟨rfl, rfl⟩ := hdir.unique hi
    have hnot : t.get? (d ++ [name]) ≠ some .directory := by
      rw [hlink]
      nofun
    have hnothing : ¬ t.Holds (d ++ [name]) := by
      rintro ⟨node, hnode, hno⟩
      exact hno target (Option.some.inj (hnode.symm.trans hlink))
    rcases hj.replaced hnot (absurd · hnothing) hsame with hkept | ⟨q, q', w, more, hq, hw, -⟩
    · exact (locate_path_eq_ok_iff hy).2 ⟨hallowed, _, hn, hi'.append hkept⟩
    -- then the path that was written to got through the link, too, and would not have replaced it
    exfalso
    have hno : t.hasPath (Location.path (dir ++ [x])) ≠ true := by
      intro hpath
      obtain ⟨w, hw⟩ := hasPath_iff.1 hpath
      rw [resolveFrom_of_locate hw] at hres
      obtain rfl := Except.ok.inj hres
      exact hnothing (reached_of_resolve (Location.isAbsolute_path _) (resolve_of_locate hw)).holds
    have hle : dir <+: dir ++ [x] := List.prefix_append _ _
    have hdirectory : t.locate dir.path = .ok e := (locate_path_eq_ok_iff (hx.above hle)).2
      ⟨hallowed'.of_isPrefix (Location.path_text_ne _) (Location.path_prefix_path hle), _,
        by omega, hdir⟩
    have hkept := resolveFrom_concat hx hdirectory hno hk
    obtain ⟨rfl, hname⟩ := List.append_inj' (Except.ok.inj (hres.symm.trans hkept)) rfl
    obtain rfl : name = x := (List.cons.inj hname).1
    exact hno (hasPath_iff.2 ⟨w, (locate_path_eq_ok_iff hx).2
      ⟨hallowed', _, by omega, hdir.append hw⟩⟩)
  · have hgrows := Grows.of_touched h (not_exists.1 hlink)
    exact (locate_path_eq_ok_iff hy).2 ⟨hallowed, n, hn,
      hgrows.leads hway (reached_nil t) hn fun s hs => (hy s hs).1⟩

theorem validate_alike (g : Guard) (h : Alike t t') (p : Path) : g.validate t' p = g.validate t p := by
  simp only [validate, resolve, resolveFrom_alike h]

end Guard

/-! ## The application file -/

namespace Linker

variable {t t' : FileTree}

/-- What files hold does not matter for where the application class is found. -/
theorem applicationFile_alike (k : Linker) (ht : t.IsTree) (h : Alike t t') :
    k.applicationFile t' = k.applicationFile t := by
  have hbelow : ∀ p file, Layout.findBelow t' p file = Layout.findBelow t p file := by
    intro p file
    unfold Layout.findBelow
    rw [h.locate_eq]
    split
    · rfl
    · rename_i l _
      rw [find?_walk_congr (h.isTree ht) ht fun names _ => h.file_iff (l ++ names)]
      simp only [h.directory_iff]
  have hproject : ∀ p, Layout.ensureProject t' p = Layout.ensureProject t p := by
    intro p
    have hdir : t'.isDirectory (p.join "app/src/main") = t.isDirectory (p.join "app/src/main") := by
      rw [Bool.eq_iff_iff, isDirectory_iff, isDirectory_iff, h.locate_eq]
      simp only [h.directory_iff]
    rw [Layout.ensureProject, hdir, Layout.ensureProject]
  have hsources : ∀ p file, Layout.findInSources t' p file = Layout.findInSources t p file := by
    intro p file
    unfold Layout.findInSources
    exact congrArg (Layout.sourceDirectories.findSome? ·) (funext fun d => hbelow _ file)
  unfold applicationFile Layout.findSourceFile validate
  rw [hproject]
  simp only [hsources, Guard.validate_alike _ h]

end Linker

end AndroidFonts
