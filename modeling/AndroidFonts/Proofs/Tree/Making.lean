/-
# `AndroidFonts.Proofs.Tree.Making` — trees in which some edits were made

A run that goes well makes edits and does nothing else to the files (`FileTree.Made`).  Edits to
different files can be made one after the other, and what was made by the first stays
(`Made.trans`).  One edit is made if it was planned for the text that is there and its file can be
written (`FileEdit.made_of_writable`).

Directories above a new file are made along the way.  `Grown` says where a tree can have changed
without saying to what; it holds of steps that fail as well.
-/
import AndroidFonts.Proofs.Tree.Reading

namespace AndroidFonts

namespace FileTree

variable {t t' u : FileTree} {r l : Location} {rs rs' : List Location} {es es' : List FileEdit}

/-! ## Trees that grow by files at some places -/

/-- Writing where there is no link takes nothing away. -/
theorem Grows.of_touched (h : Touched r t t') (hr : ∀ target, t.get? r ≠ some (.link target)) :
    Grows t t' where
  current := h.current
  directory := by
    intro l hl
    rcases h.get? l with heq | ⟨hnone, -, -⟩ | ⟨-, hnot, -⟩
    · rw [heq, hl]
    · rw [hnone] at hl
      cases hl
    · exact absurd hl hnot
  file := by
    intro l c hl
    rcases h.get? l with heq | ⟨hnone, -, -⟩ | ⟨-, -, hfile⟩
    · exact ⟨c, heq ▸ hl⟩
    · rw [hnone] at hl
      cases hl
    · exact hfile
  link := by
    intro l target hl
    rcases h.get? l with heq | ⟨hnone, -, -⟩ | ⟨rfl, -, -⟩
    · exact .inl (heq ▸ hl)
    · rw [hnone] at hl
      cases hl
    · exact absurd hl (hr target)
  noLink := by
    intro l target hl
    rcases h.get? l with heq | ⟨-, hdir, -⟩ | ⟨-, -, c, hc⟩
    · exact heq ▸ hl
    · rw [hdir] at hl
      cases hl
    · rw [hc] at hl
      cases hl

/-- A tree has grown by files at some places and by directories above them. -/
structure Grown (rs : List Location) (t t' : FileTree) : Prop where
  isTree : t'.IsTree
  grows : Grows t t'
  get? : ∀ l, t'.get? l = t.get? l ∨ t.get? l ≠ some .directory ∧
    ∃ r ∈ rs, l <+: r ∧ (l = r ∨ t'.get? l = some .directory)

namespace Grown

theorem refl (ht : t.IsTree) : Grown rs t t := ⟨ht, .refl t, fun _ => .inl rfl⟩

theorem trans (h : Grown rs t u) (h' : Grown rs' u t') (ht : t.IsTree) :
    Grown (rs ++ rs') t t' := by
  refine ⟨h'.isTree, h.grows.trans h'.grows ht, fun l => ?_⟩
  rcases h'.get? l with heq | ⟨hdir, r, hr, hlr, hwhat⟩
  · rw [heq]
    rcases h.get? l with heq | ⟨hdir, r, hr, hlr, hwhat⟩
    · exact .inl heq
    · exact .inr ⟨hdir, r, List.mem_append_left _ hr, hlr, hwhat⟩
  · exact .inr ⟨fun hdirectory => hdir (h.grows.directory hdirectory), r,
      List.mem_append_right _ hr, hlr, hwhat⟩

theorem of_touched (h : Touched r t t') (hr : t.Unlinked r) : Grown [r] t t' where
  isTree := h.isTree
  grows := .of_touched h (hr r List.prefix_rfl)
  get? := by
    intro l
    rcases h.get? l with heq | ⟨hnone, hdir, hlr⟩ | ⟨rfl, hnot, -⟩
    · exact .inl heq
    · exact .inr ⟨by rw [hnone]; nofun, r, List.mem_cons_self, hlr, .inr hdir⟩
    · exact .inr ⟨hnot, l, List.mem_cons_self, List.prefix_rfl, .inl rfl⟩

/-- A file elsewhere was there before. -/
theorem get?_of_file {c : Contents} (h : Grown rs t t') (hl : l ∉ rs)
    (hfile : t'.get? l = some (.file c)) : t.get? l = some (.file c) := by
  rcases h.get? l with heq | ⟨-, r, hr, -, rfl | hdir⟩
  · exact heq ▸ hfile
  · exact absurd hr hl
  · rw [hdir] at hfile
    nomatch hfile

end Grown

/-! ## Edits that were made -/

/-- The files that are new or have changed are those of some edits, and hold their new texts. -/
structure Made (es : List FileEdit) (t t' : FileTree) : Prop where
  isTree : t'.IsTree
  grows : Grows t t'
  file_iff : ∀ l : Location, l.Named → ∀ c,
    t'.get? l = some (.file c) ∧ t.get? l ≠ some (.file c) ↔
      ∃ e ∈ es, e.file = l.path ∧ c = .text e.after

namespace Made

theorem refl (ht : t.IsTree) : Made [] t t :=
  ⟨ht, .refl t, fun _ _ _ => ⟨fun h => absurd h.1 h.2, nofun⟩⟩

theorem trans (h : Made es t u) (h' : Made es' u t') (ht : t.IsTree)
    (hapart : ∀ e ∈ es, ∀ e' ∈ es', e.file ≠ e'.file) : Made (es ++ es') t t' := by
  refine ⟨h'.isTree, h.grows.trans h'.grows ht, fun l hl c => ⟨?_, ?_⟩⟩
  · rintro ⟨hc, hne⟩
    by_cases hmid : u.get? l = some (.file c)
    · obtain ⟨e, he, hfile, hafter⟩ := (h.file_iff l hl c).1 ⟨hmid, hne⟩
      exact ⟨e, List.mem_append_left _ he, hfile, hafter⟩
    · obtain ⟨e, he, hfile, hafter⟩ := (h'.file_iff l hl c).1 ⟨hc, hmid⟩
      exact ⟨e, List.mem_append_right _ he, hfile, hafter⟩
  · rintro ⟨e, he, hfile, rfl⟩
    rcases List.mem_append.1 he with he | he
    · obtain ⟨hu, hne⟩ := (h.file_iff l hl _).2 ⟨e, he, hfile, rfl⟩
      obtain ⟨c', hc'⟩ := h'.grows.file hu
      by_cases hsame : u.get? l = some (.file c')
      · rw [hc', ← hsame, hu]
        exact ⟨rfl, hne⟩
      · obtain ⟨e', he', hfile', -⟩ := (h'.file_iff l hl c').1 ⟨hc', hsame⟩
        exact absurd (hfile.trans hfile'.symm) (hapart e he e' he')
    · obtain ⟨hc, hne⟩ := (h'.file_iff l hl _).2 ⟨e, he, hfile, rfl⟩
      refine ⟨hc, fun hbefore => ?_⟩
      obtain ⟨c', hc'⟩ := h.grows.file hbefore
      by_cases hsame : t.get? l = some (.file c')
      · rw [hc', ← hsame, hbefore] at hne
        exact hne rfl
      · obtain ⟨e', he', hfile', -⟩ := (h.file_iff l hl c').1 ⟨hc', hsame⟩
        exact hapart e' he' e he (hfile'.trans hfile.symm)

end Made

/-! ## Files that can be written -/

/-- What can be written in one tree can be written in another in which its path leads to a text, or
nowhere for want of a name. -/
theorem Writable.of_readText (hr : t.Writable r) (hu : u.IsTree) (hnamed : r.Named)
    (hunlinked : u.Unlinked r)
    (hread : (∃ s, u.readText r.path = .ok s) ∨ u.readText r.path = .error .notFound) :
    u.Writable r := by
  have hkeep : (∀ c, c <+: r.dropLast → u.get? c = none ∨ u.get? c = some .directory) →
      u.get? r ≠ some .directory → u.Writable r := fun habove hnot =>
    ⟨hr.ne_nil, habove, hr.short, hr.allowed, hr.room, hnot⟩
  have hlast : ∀ {c : Location}, c <+: r.dropLast → c <+: r ∧ c ≠ r := by
    intro c hc
    refine ⟨hc.trans (List.dropLast_prefix r), ?_⟩
    rintro rfl
    have := hc.length_le
    rw [List.length_dropLast] at this
    have := List.length_pos_iff.2 hr.ne_nil
    omega
  rcases hread with ⟨s, hs⟩ | hmissing
  · obtain ⟨-, hfile⟩ := (hunlinked.readText_path_eq_ok_iff hu hnamed).1 hs
    refine hkeep (fun c hc => .inr ?_) (by rw [hfile]; nofun)
    exact hu.above (by rw [hfile]; nofun) (hlast hc).1 (hlast hc).2
  · obtain ⟨-, e, name, rest, rfl, hdir, hnone, -⟩ := hunlinked.missing_of_readText hnamed hmissing
    have hsplit : e ++ name :: rest = (e ++ [name]) ++ rest := by simp
    have hbelow : ∀ {c : Location}, e ++ [name] <+: c → u.get? c = none := by
      intro c hc
      by_cases heq : e ++ [name] = c
      · exact heq ▸ hnone
      · exact hu.below (by rw [hnone]; nofun) hc heq
    have hprefix : e ++ [name] <+: e ++ name :: rest := hsplit ▸ List.prefix_append _ _
    refine hkeep (fun c hc => ?_) (by rw [hbelow hprefix]; nofun)
    rcases List.prefix_or_prefix_of_prefix (hlast hc).1 hprefix with hle | hle
    · rcases List.prefix_concat_iff.1 hle with rfl | hle
      · exact .inl hnone
      · by_cases heq : c = e
        · exact .inr (heq ▸ hdir)
        · exact .inr (hu.above (by rw [hdir]; nofun) hle heq)
    · exact .inl (hbelow hle)

end FileTree

open FileTree

namespace FileEdit

variable {t : FileTree} {e : FileEdit} {r : Location}

theorem apply_of_current (hcurrent : currentText t e.file = .ok e.before)
    (hnoop : e.isNoop = false) : e.apply t = e.install t := by
  have hne : e.before ≠ some e.after := of_decide_eq_false hnoop
  rcases e.apply_cases t with ⟨cause, h⟩ | ⟨-, h⟩ | ⟨h, -, -⟩
  · unfold apply at h ⊢
    rw [hcurrent] at h ⊢
    simp only [hne, if_false] at h ⊢
    cases hbefore : e.before with
    | none => rfl
    | some expected => simp
  · rw [hcurrent] at h
    exact absurd (Except.ok.inj h) hne
  · exact h

theorem currentText_eq_ok_iff {p : Path} {x : Option String} :
    currentText t p = .ok x ↔ (∃ s, t.readText p = .ok s ∧ x = some s) ∨
      t.readText p = .error .notFound ∧ x = none := by
  unfold currentText
  cases t.readText p with
  | ok s => simp [eq_comm]
  | error cause => cases cause <;> simp [IoError.isNotFound, eq_comm]

theorem currentText_eq_some_iff {p : Path} {s : String} :
    currentText t p = .ok (some s) ↔ t.readText p = .ok s := by
  simp [currentText_eq_ok_iff]

/-- A planned edit that could be applied could be written. -/
theorem writable_of_apply {o : EditOutcome} (ht : t.IsTree) (hnamed : r.Named)
    (hr : t.Unlinked r) (he : e.file = r.path) (hcurrent : currentText t e.file = .ok e.before)
    (hnoop : e.isNoop = false) (h : (e.apply t).1 = .ok o) : t.Writable r := by
  rw [apply_of_current hcurrent hnoop] at h
  exact writable_of_install ht hnamed (hr.straight.of_isPrefix (List.dropLast_prefix r)) he h

/-- A planned edit whose file can be written is made. -/
theorem made_of_writable (ht : t.IsTree) (hnamed : r.Named) (hr : t.Unlinked r)
    (he : e.file = r.path) (hcurrent : currentText t e.file = .ok e.before)
    (hnoop : e.isNoop = false) (hw : t.Writable r) :
    (e.apply t).1 = .ok (.applied (Text.byteLength e.after.toList)) ∧
      Made [e] t (e.apply t).2 := by
  have htouched := apply_touched ht hnamed (hr.straight.of_isPrefix (List.dropLast_prefix r)) he
  have hgrown := Grown.of_touched htouched hr
  rw [apply_of_current hcurrent hnoop] at hgrown ⊢
  obtain ⟨u, hu, hdir, hnot, hinstall⟩ := install_of_writable ht hnamed hw he
  rw [hinstall] at hgrown ⊢
  refine ⟨rfl, hgrown.isTree, hgrown.grows, fun l hl c => ⟨?_, ?_⟩⟩
  · rintro ⟨hc, hne⟩
    rw [get?_put u hw.ne_nil] at hc
    split at hc
    · rename_i heq
      subst heq
      exact ⟨e, List.mem_singleton_self e, he, (FileNode.file.inj (Option.some.inj hc)).symm⟩
    · rcases hu.get? l with heq | ⟨-, hdirectory, -⟩
      · exact absurd (heq ▸ hc) hne
      · rw [hdirectory] at hc
        nomatch hc
  · rintro ⟨e', he', hfile, rfl⟩
    obtain rfl := List.mem_singleton.1 he'
    obtain rfl := Location.path_injective hl hnamed (hfile.symm.trans he)
    refine ⟨by rw [get?_put u hw.ne_nil, if_pos rfl], fun hbefore => ?_⟩
    have hread := (hr.readText_path_eq_ok_iff ht hl).2 ⟨hw.allowed, hbefore⟩
    rw [he, currentText_eq_some_iff.2 hread] at hcurrent
    have hsome : some e'.after = e'.before := Except.ok.inj hcurrent
    exact absurd hsome.symm (of_decide_eq_false hnoop)

end FileEdit

end AndroidFonts
