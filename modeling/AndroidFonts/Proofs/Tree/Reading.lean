/-
# `AndroidFonts.Proofs.Tree.Reading` — what is read at a place with no link on it

The path of a place that has no link on it (`FileTree.Unlinked`) leads to that place or nowhere, so
what is read there depends only on what stands on the way to it (`readText_path_congr`).  In a tree
that grows such a place stays without links; where nothing is found later, nothing was found before
(`Grows.readText_notFound`).  The converse fails, which is why a dry run is not always a faithful
one.
-/
import AndroidFonts.Proofs.Tree.Effect

namespace AndroidFonts

namespace FileTree

variable {t t' : FileTree} {k : Nat} {d l m : Location} {names : List String} {s : String}

/-! ## Places with no link on them -/

/-- Whether no place on the way to a place is a link. -/
def Unlinked (t : FileTree) (l : Location) : Prop :=
  ∀ d, d <+: l → ∀ target, t.get? d ≠ some (.link target)

theorem Unlinked.of_isPrefix (h : t.Unlinked l) (hd : d <+: l) : t.Unlinked d :=
  fun e he => h e (he.trans hd)

theorem Unlinked.settled (h : t.Unlinked l) : t.Settled l :=
  fun d hd target htarget => absurd htarget (h d hd target)

theorem Unlinked.straight (h : t.Unlinked l) : t.Straight l :=
  fun d hd target htarget => absurd htarget (h d hd target)

theorem Reached.unlinked (h : t.Reached l) : t.Unlinked l := by
  intro d hd target htarget
  obtain ⟨node, hnode, hlink⟩ := (h.of_isPrefix hd).holds
  rw [htarget] at hnode
  exact hlink target (Option.some.inj hnode).symm

theorem unlinked_of_nodes (h : t.nodes.all (fun x => match x.2 with
    | .link _ => false
    | _ => true) = true) (l : Location) : t.Unlinked l := by
  intro d _ target hd
  rw [get?] at hd
  split at hd
  · cases hd
  · obtain ⟨_, _, hsplit, -⟩ := List.lookup_eq_some_iff.1 hd
    have := List.all_eq_true.1 h (d, .link target) (by simp [hsplit])
    cases this

namespace Grows

theorem unlinked (h : Grows t t') (hl : t.Unlinked l) : t'.Unlinked l :=
  fun d hd target htarget => hl d hd target (h.noLink htarget)

theorem get?_ne_none (h : Grows t t') (hl : t.get? l ≠ none) : t'.get? l ≠ none := by
  obtain ⟨node, hnode⟩ := Option.ne_none_iff_exists'.1 hl
  cases node with
  | directory =>
    rw [h.directory hnode]
    nofun
  | file c =>
    obtain ⟨c', hc'⟩ := h.file hnode
    rw [hc']
    nofun
  | link target =>
    rcases h.link hnode with hlink | ⟨⟨c, hc⟩, -⟩
    · rw [hlink]
      nofun
    · rw [hc]
      nofun

theorem locate {p : Path} (h : Grows t t') (hp : p.isAbsolute = true)
    (hl : t.locate p = .ok l) : t'.locate p = .ok l := by
  obtain ⟨hallowed, n, hn, hleads⟩ := locate_eq_ok_iff.1 hl
  rw [startOf_of_isAbsolute hp] at hleads
  refine locate_eq_ok_iff.2 ⟨hallowed, n, hn, ?_⟩
  rw [startOf_of_isAbsolute hp]
  exact h.leads hleads (reached_nil t) hn fun s hs => Path.isStep_of_mem_steps hs

theorem resolve {p : Path} (h : Grows t t') (hp : p.isAbsolute = true)
    (hl : t.resolve p = .ok l) : t'.resolve p = .ok l := by
  obtain ⟨htext, n, hn, hleads⟩ := resolve_eq_ok_iff.1 hl
  rw [startOf_of_isAbsolute hp] at hleads
  refine resolve_eq_ok_iff.2 ⟨htext, n, hn, ?_⟩
  rw [startOf_of_isAbsolute hp]
  exact h.leads hleads (reached_nil t) hn fun s hs => Path.isStep_of_mem_steps hs

end Grows

/-! ## Following the names of such a place -/

/-- Only what kind of thing stands at each place on the way counts. -/
theorem follow_congr (hnamed : Location.Named (l ++ names)) (h : t.Unlinked (l ++ names))
    (h' : t'.Unlinked (l ++ names)) (hkind : ∀ d, d <+: l ++ names →
      (t.get? d = some .directory ↔ t'.get? d = some .directory) ∧
        (t.get? d = none ↔ t'.get? d = none)) :
    t.follow k l names = t'.follow k l names := by
  induction names generalizing l with
  | nil => rw [follow_nil, follow_nil]
  | cons name rest ih =>
    have hdots := (hnamed name (by simp)).2
    have hl : l <+: l ++ name :: rest := List.prefix_append _ _
    have hsplit : l ++ name :: rest = (l ++ [name]) ++ rest := by simp
    have hln : l ++ [name] <+: l ++ name :: rest := hsplit ▸ List.prefix_append _ _
    cases met t l name with
    | blocked hdir =>
      rw [follow_cons_of_not_directory hdir,
        follow_cons_of_not_directory fun hdir' => hdir ((hkind l hl).1.2 hdir')]
    | stay hdir hdot => exact absurd hdot hdots.1
    | up hdir hdot => exact absurd hdot hdots.2
    | long hdir _ _ hlong =>
      rw [follow_cons_of_long hdir hdots.1 hdots.2 hlong,
        follow_cons_of_long ((hkind l hl).1.1 hdir) hdots.1 hdots.2 hlong]
    | missing hdir _ _ hlen hnone =>
      rw [follow_cons_of_missing hdir hdots.1 hdots.2 hlen hnone,
        follow_cons_of_missing ((hkind l hl).1.1 hdir) hdots.1 hdots.2 hlen ((hkind _ hln).2.1 hnone)]
    | down node hdir _ _ hlen hnode hlink =>
      have hsome : t'.get? (l ++ [name]) ≠ none := by
        intro hnone
        rw [(hkind _ hln).2.2 hnone] at hnode
        nomatch hnode
      obtain ⟨node', hnode'⟩ := Option.ne_none_iff_exists'.1 hsome
      rw [follow_down hdir hdots.1 hdots.2 hlen hnode hlink,
        follow_down ((hkind l hl).1.1 hdir) hdots.1 hdots.2 hlen hnode' fun target htarget =>
          h' _ hln target (htarget ▸ hnode')]
      exact ih (hsplit ▸ hnamed) (hsplit ▸ h) (hsplit ▸ h') (hsplit ▸ hkind)
    | through target hdir _ _ hlen hnode => exact absurd hnode (h _ hln target)

/-- Where nothing is found, a name is missing in a directory. -/
theorem missing_of_follow (hnamed : Location.Named (l ++ names)) (h : t.Unlinked (l ++ names))
    (hfollow : t.follow k l names = .error .notFound) :
    ∃ e name rest, names = e ++ name :: rest ∧ t.get? (l ++ e) = some .directory ∧
      t.get? (l ++ e ++ [name]) = none ∧
      ∀ s ∈ e ++ [name], Text.byteLength s.toList ≤ maxName := by
  induction names generalizing l with
  | nil =>
    rw [follow_nil] at hfollow
    nomatch hfollow
  | cons name rest ih =>
    have hdots := (hnamed name (by simp)).2
    have hsplit : l ++ name :: rest = (l ++ [name]) ++ rest := by simp
    cases met t l name with
    | blocked hdir =>
      rw [follow_cons_of_not_directory hdir] at hfollow
      nomatch hfollow
    | stay hdir hdot => exact absurd hdot hdots.1
    | up hdir hdot => exact absurd hdot hdots.2
    | long hdir _ _ hlong =>
      rw [follow_cons_of_long hdir hdots.1 hdots.2 hlong] at hfollow
      nomatch hfollow
    | missing hdir _ _ hlen hnone =>
      exact ⟨[], name, rest, rfl, by simpa using hdir, by simpa using hnone, by simpa using hlen⟩
    | down node hdir _ _ hlen hnode hlink =>
      rw [follow_down hdir hdots.1 hdots.2 hlen hnode hlink] at hfollow
      obtain ⟨e, name', rest', rfl, hdir', hnone, hlens⟩ := ih (hsplit ▸ hnamed) (hsplit ▸ h) hfollow
      refine ⟨name :: e, name', rest', rfl, by simpa using hdir', by simpa using hnone, ?_⟩
      rintro s (_ | ⟨_, hs⟩)
      · exact hlen
      · exact hlens s hs
    | through target hdir _ _ hlen hnode =>
      exact absurd hnode (h _ (hsplit ▸ List.prefix_append _ _) target)

/-! ## Reading -/

theorem locate_path (hl : l.Named) (hne : l ≠ []) (hallowed : Allowed l.path) :
    t.locate l.path = t.follow maxLinks [] l := by
  rw [hallowed.locate, startOf_of_isAbsolute l.isAbsolute_path, Location.steps_path hl, if_neg hne]

/-- A path that the system does not take fails in the same way everywhere. -/
theorem locate_of_not_allowed {p : Path} (hp : p.text ≠ "") (hallowed : ¬ Allowed p) :
    ∃ cause, cause ≠ .notFound ∧ ∀ t : FileTree, t.locate p = .error cause := by
  by_cases hnul : '\x00' ∈ p.text.toList
  · exact ⟨.nulInPath, by simp, fun t => by rw [locate, if_pos hnul]⟩
  · have hlong : p.isTooLong = true := by
      cases hlong : p.isTooLong with
      | true => rfl
      | false => exact absurd ⟨hnul, hlong, hp⟩ hallowed
    exact ⟨.nameTooLong, by simp, fun t => by rw [locate, if_neg hnul, hlong, if_pos rfl]⟩

theorem locate_path_nil (t : FileTree) : t.locate (Location.path []) = .ok [] := by
  obtain ⟨m, hm⟩ := hasPath_iff.1 t.hasPath_top
  obtain ⟨-, n, -, hleads⟩ := (locate_path_eq_ok_iff Location.named_nil).1 hm
  cases hleads
  exact hm

/-- The path of a place with no link on it leads there if anywhere. -/
theorem Unlinked.eq_of_locate_path (h : t.Unlinked l) (hl : l.Named)
    (hm : t.locate l.path = .ok m) : m = l := by
  have := h.settled.locate_path hl (hasPath_iff.2 ⟨m, hm⟩)
  rw [hm] at this
  exact Except.ok.inj this

theorem readText_eq_ok_iff {p : Path} :
    t.readText p = .ok s ↔ ∃ m, t.locate p = .ok m ∧ t.get? m = some (.file (.text s)) := by
  unfold readText
  cases hm : t.locate p with
  | error cause => simp [error_bind]
  | ok m =>
    simp only [ok_bind, Except.ok.injEq, exists_eq_left']
    split
    · rename_i s' heq
      rw [heq]
      simp [pure, Except.pure]
    · rename_i heq
      simp [heq, throw, throwThe, MonadExceptOf.throw]
    · rename_i heq
      simp [heq, throw, throwThe, MonadExceptOf.throw]
    · rename_i hno _ _
      simp only [throw, throwThe, MonadExceptOf.throw, reduceCtorEq, false_iff]
      exact hno s

theorem Unlinked.readText_path_eq_ok_iff (h : t.Unlinked l) (ht : t.IsTree) (hl : l.Named) :
    t.readText l.path = .ok s ↔ Allowed l.path ∧ t.get? l = some (.file (.text s)) := by
  rw [readText_eq_ok_iff]
  constructor
  · rintro ⟨m, hm, hfile⟩
    obtain rfl := h.eq_of_locate_path hl hm
    exact ⟨((locate_path_eq_ok_iff hl).1 hm).1, hfile⟩
  · rintro ⟨hallowed, hfile⟩
    have hreached := ht.reached (holds_of_file hfile)
    exact ⟨l, (locate_path_eq_ok_iff hl).2 ⟨hallowed, 0, Nat.zero_le _, hreached.leads⟩, hfile⟩

theorem readText_path_congr (hl : l.Named) (h : t.Unlinked l) (h' : t'.Unlinked l)
    (hkind : ∀ d, d <+: l → (t.get? d = some .directory ↔ t'.get? d = some .directory) ∧
      (t.get? d = none ↔ t'.get? d = none)) (hsame : t.get? l = t'.get? l) :
    t.readText l.path = t'.readText l.path := by
  have hlocate : t.locate l.path = t'.locate l.path := by
    by_cases hallowed : Allowed l.path
    · by_cases hne : l = []
      · rw [hne, locate_path_nil, locate_path_nil]
      · rw [locate_path hl hne hallowed, locate_path hl hne hallowed]
        exact follow_congr hl h h' hkind
    · obtain ⟨cause, -, hcause⟩ := locate_of_not_allowed l.path_text_ne hallowed
      rw [hcause, hcause]
  unfold readText
  rw [hlocate]
  cases hm : t'.locate l.path with
  | error cause => rfl
  | ok m =>
    obtain rfl := h'.eq_of_locate_path hl hm
    rw [ok_bind, ok_bind, hsame]

/-- Where nothing is found, the system takes the path, and a name is missing in a directory. -/
theorem Unlinked.missing_of_readText (h : t.Unlinked l) (hl : l.Named)
    (hread : t.readText l.path = .error .notFound) :
    Allowed l.path ∧ ∃ e name rest, l = e ++ name :: rest ∧ t.get? e = some .directory ∧
      t.get? (e ++ [name]) = none ∧ ∀ s ∈ e ++ [name], Text.byteLength s.toList ≤ maxName := by
  unfold readText at hread
  cases hm : t.locate l.path with
  | ok m =>
    obtain rfl := h.eq_of_locate_path hl hm
    obtain ⟨node, hnode, hlink⟩ :=
      (reached_of_resolve m.isAbsolute_path (resolve_of_locate hm)).holds
    rw [hm, ok_bind, hnode] at hread
    cases node with
    | directory => nomatch hread
    | file c => cases c <;> nomatch hread
    | link target => exact absurd rfl (hlink target)
  | error cause =>
    rw [hm, error_bind] at hread
    obtain rfl : cause = .notFound := Except.error.inj hread
    have hallowed : Allowed l.path := by
      by_contra hnot
      obtain ⟨cause, hne, hcause⟩ := locate_of_not_allowed l.path_text_ne hnot
      rw [hcause] at hm
      exact hne (Except.error.inj hm)
    have hne : l ≠ [] := by
      rintro rfl
      rw [locate_path_nil] at hm
      nomatch hm
    rw [locate_path hl hne hallowed] at hm
    obtain ⟨e, name, rest, rfl, hdir, hnone, hlens⟩ := missing_of_follow (l := []) hl h hm
    exact ⟨hallowed, e, name, rest, rfl, hdir, hnone, hlens⟩

/-- Where nothing is found in a grown tree, nothing was found before. -/
theorem Grows.readText_notFound (h : Grows t t') (ht : t.IsTree) (ht' : t'.IsTree)
    (hl : l.Named) (hunlinked : t.Unlinked l) (hread : t'.readText l.path = .error .notFound) :
    t.readText l.path = .error .notFound := by
  obtain ⟨hallowed, e, name, rest, rfl, hdir, hnone, hlens⟩ :=
    (h.unlinked hunlinked).missing_of_readText hl hread
  have hsplit : e ++ name :: rest = (e ++ [name]) ++ rest := by simp
  have hle : e ++ [name] <+: e ++ name :: rest := hsplit ▸ List.prefix_append _ _
  have hmissing : t.get? (e ++ [name]) = none := by
    by_contra hsome
    exact h.get?_ne_none hsome hnone
  have habove : ∀ c, c <+: e ++ [name] → t.get? c = none ∨ t.get? c = some .directory := by
    intro c hc
    rcases List.prefix_concat_iff.1 hc with rfl | hce
    · exact .inl hmissing
    · have hdirectory : t'.get? c = some .directory := by
        by_cases heq : c = e
        · exact heq ▸ hdir
        · exact ht'.above (by rw [hdir]; nofun) hce heq
      cases hc' : t.get? c with
      | none => exact .inl rfl
      | some node =>
        cases node with
        | directory => exact .inr rfl
        | file f =>
          obtain ⟨f', hf'⟩ := h.file hc'
          rw [hf'] at hdirectory
          nomatch hdirectory
        | link target => exact absurd hc' (hunlinked c (hc.trans hle) target)
  have hfollow : t.follow maxLinks [] (e ++ name :: rest) = .error .notFound := by
    rw [hsplit]
    exact follow_append_of_error (follow_of_missing ht (hl.above hle) hlens habove hmissing _) _
  rw [readText, locate_path hl (by simp) hallowed, hfollow]
  rfl

end FileTree

end AndroidFonts
