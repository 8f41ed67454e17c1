/-
# `AndroidFonts.Proofs.Tree.Shape` — what a file system is, and what a change leaves of its shape

A map of places is a file system if everything it holds stands in a directory under a name
(`FileTree.IsTree`).  Then a place that holds no link is reached through directories alone, and below
a place that is missing, or that is no directory, there is nothing.

A place is settled if nothing on the way to it is a link that leads somewhere (`Settled`), and `d` is
straight if no link on the way to it leads to a directory (`Straight`).  Where the system finds a
directory under the path of such a `d`, it is `d` itself (`Straight.eq_of_leads`); this is the fact by
which a write stays where it was judged.

Two trees are compared in two ways.  `Rewritten t t'`: what differs was there and is a file now.
Then no directory is reached in `t'` that was not in `t`.  `Grows t t'`: what `t` has stays of its
kind, links that led nowhere may be replaced by files, and what is new is no link.  Then what led
somewhere in `t` leads there in `t'`.
-/
import AndroidFonts.Proofs.Tree.Following

namespace AndroidFonts

namespace FileTree

variable {t t' t'' : FileTree} {n : Nat} {l m d : Location} {name : String} {names : List String}
  {node : FileNode}

/-! ## File systems -/

/-- Everything stands in a directory, under a name that the system takes. -/
structure IsTree (t : FileTree) : Prop where
  directory : ∀ l name, t.get? (l ++ [name]) ≠ none → t.get? l = some .directory
  isName : ∀ l name, t.get? (l ++ [name]) ≠ none →
    IsName name ∧ Text.byteLength name.toList ≤ maxName

namespace IsTree

theorem above (ht : t.IsTree) (hl : t.get? l ≠ none) (hd : d <+: l) (hne : d ≠ l) :
    t.get? d = some .directory := by
  induction l using List.reverseRecOn with
  | nil => exact absurd (List.prefix_nil.1 hd) hne
  | append_singleton e name ih =>
    have he := ht.directory e name hl
    rcases List.prefix_concat_iff.1 hd with heq | hd
    · exact absurd heq hne
    · by_cases hde : d = e
      · exact hde ▸ he
      · exact ih (by rw [he]; nofun) hd hde

/-- Below something that is no directory there is nothing. -/
theorem below (ht : t.IsTree) (hd : t.get? d ≠ some .directory) (hdl : d <+: l) (hne : d ≠ l) :
    t.get? l = none := by
  by_cases hl : t.get? l = none
  · exact hl
  · exact absurd (ht.above hl hdl hne) hd

theorem named (ht : t.IsTree) (hl : t.get? l ≠ none) :
    ∀ s ∈ l, IsName s ∧ Text.byteLength s.toList ≤ maxName := by
  induction l using List.reverseRecOn with
  | nil => exact nofun
  | append_singleton e name ih =>
    intro s hs
    rcases List.mem_append.1 hs with hs | hs
    · exact ih (by rw [ht.directory e name hl]; nofun) s hs
    · obtain rfl := List.mem_singleton.1 hs
      exact ht.isName e s hl

theorem reached (ht : t.IsTree) (hl : t.Holds l) : t.Reached l := by
  have hsome : t.get? l ≠ none := by
    obtain ⟨node, hnode, -⟩ := hl
    rw [hnode]
    nofun
  exact {
    named := fun s hs => (ht.named hsome s hs).1
    short := fun s hs => (ht.named hsome s hs).2
    above := fun d hd hne => ht.above hsome hd hne
    holds := hl }

/-- Something put into a directory keeps a file system one, unless a directory is lost. -/
theorem put (ht : t.IsTree) (hdir : t.get? l = some .directory) (hname : IsName name)
    (hlen : Text.byteLength name.toList ≤ maxName)
    (hkeep : t.get? (l ++ [name]) = some .directory → node = .directory) :
    (t.put (l ++ [name]) node).IsTree := by
  have hne : l ++ [name] ≠ [] := by simp
  refine ⟨fun e s he => ?_, fun e s he => ?_⟩
  · rw [get?_put t hne] at he ⊢
    have hdirectory : t.get? e = some .directory := by
      split at he
      · rename_i heq
        obtain ⟨rfl, -⟩ := List.append_inj' heq rfl
        exact hdir
      · exact ht.directory e s he
    split
    · rename_i heq
      rw [hkeep (heq ▸ hdirectory)]
    · exact hdirectory
  · rw [get?_put t hne] at he
    split at he
    · rename_i heq
      obtain ⟨-, hs⟩ := List.append_inj' heq rfl
      obtain rfl := (List.cons.inj hs).1
      exact ⟨hname, hlen⟩
    · exact ht.isName e s he

theorem of_nodes (h : ∀ x ∈ t.nodes, t.get? x.1.dropLast = some .directory ∧
    ∀ s ∈ x.1, IsName s ∧ Text.byteLength s.toList ≤ maxName) : t.IsTree := by
  have hmem : ∀ l name, t.get? (l ++ [name]) ≠ none → ∃ node, (l ++ [name], node) ∈ t.nodes := by
    intro l name hl
    simp only [get?, List.append_eq_nil_iff, List.cons_ne_nil, and_false, if_false] at hl
    obtain ⟨node, hnode⟩ := Option.ne_none_iff_exists'.1 hl
    obtain ⟨_, _, hsplit, -⟩ := List.lookup_eq_some_iff.1 hnode
    exact ⟨node, hsplit ▸ by simp⟩
  refine ⟨fun l name hl => ?_, fun l name hl => ?_⟩
  · obtain ⟨node, hnode⟩ := hmem l name hl
    simpa using (h _ hnode).1
  · obtain ⟨node, hnode⟩ := hmem l name hl
    exact (h _ hnode).2 name (by simp)

end IsTree

/-! ## Places with no link that leads somewhere on their way -/

/-- Whether nothing on the way to a place is a link that leads somewhere. -/
def Settled (t : FileTree) (l : Location) : Prop :=
  ∀ d : Location, d <+: l → ∀ target, t.get? d = some (.link target) → t.hasPath d.path = false

theorem Settled.of_isPrefix (h : t.Settled l) (hd : d <+: l) : t.Settled d :=
  fun e he => h e (he.trans hd)

theorem Reached.settled (h : t.Reached l) : t.Settled l := by
  intro d hd target htarget
  obtain ⟨node, hnode, hlink⟩ := (h.of_isPrefix hd).holds
  rw [htarget] at hnode
  exact absurd (Option.some.inj hnode).symm (hlink target)

/-- A settled place that exists is what its path leads to. -/
theorem Settled.locate_path (h : t.Settled l) (hl : l.Named) (hpath : t.hasPath l.path = true) :
    t.locate l.path = .ok l := by
  obtain ⟨m, hm⟩ := hasPath_iff.1 hpath
  obtain ⟨-, n, -, hleads⟩ := (locate_path_eq_ok_iff hl).1 hm
  obtain ⟨-, rfl⟩ := hleads.eq_append hl fun d hd target htarget => by
    have := h d hd target htarget
    rw [hasPath_of_isPrefix hl hd hpath] at this
    nomatch this
  exact hm

/-! ## Ways without links to directories -/

theorem isDirectory_iff {p : Path} :
    t.isDirectory p = true ↔ ∃ m, t.locate p = .ok m ∧ t.get? m = some .directory := by
  rw [isDirectory]
  cases t.locate p with
  | error e => simp
  | ok m => simp

theorem isDirectory_path (ht : t.IsTree) (hallowed : Allowed d.path)
    (hdir : t.get? d = some .directory) : t.isDirectory d.path = true := by
  have hreached := ht.reached (holds_of_directory hdir)
  exact isDirectory_iff.2 ⟨d, (locate_path_eq_ok_iff hreached.named).2
    ⟨hallowed, 0, Nat.zero_le _, hreached.leads⟩, hdir⟩

/-- No link on the way to a place leads to a directory. -/
def Straight (t : FileTree) (d : Location) : Prop :=
  ∀ c : Location, c <+: d → ∀ target, t.get? c = some (.link target) → t.isDirectory c.path = false

/-- A directory that the names of `d` lead to is `d`. -/
theorem Straight.eq_of_leads (hd : t.Straight d) (hnamed : d.Named) (hallowed : Allowed d.path)
    (hn : n ≤ maxLinks) (h : Leads t n [] d m) (hdir : t.get? m = some .directory) :
    n = 0 ∧ m = d := by
  refine h.eq_append hnamed fun c hc target htarget => ?_
  have hfalse := hd c hc target htarget
  obtain ⟨e, rfl⟩ := hc
  obtain ⟨i, j, k, hij, hk, he⟩ := h.split
  have hkdir : t.get? k = some .directory := by
    cases e with
    | nil =>
      cases he
      exact hdir
    | cons s e => exact he.directory_of_cons
  have hc : c <+: c ++ e := List.prefix_append _ _
  rw [isDirectory_iff.2 ⟨k, (locate_path_eq_ok_iff (hnamed.above hc)).2
    ⟨hallowed.of_isPrefix (Location.path_text_ne c) (Location.path_prefix_path hc), i, by omega, hk⟩,
    hkdir⟩] at hfalse
  nomatch hfalse

/-! ## Files in the place of files and links -/

/-- What differs between two trees was there, was no directory, and is a file now. -/
structure Rewritten (t t' : FileTree) : Prop where
  current : t'.current = t.current
  get? : ∀ l, t'.get? l = t.get? l ∨
    (∃ c, t'.get? l = some (.file c)) ∧ t.get? l ≠ some .directory ∧ t.get? l ≠ none

namespace Rewritten

theorem refl (t : FileTree) : Rewritten t t := ⟨rfl, fun _ => .inl rfl⟩

theorem trans (h : Rewritten t t') (h' : Rewritten t' t'') : Rewritten t t'' := by
  refine ⟨h'.current.trans h.current, fun l => ?_⟩
  rcases h'.get? l with heq | ⟨hfile, hdir, hnone⟩
  · rw [heq]
    exact h.get? l
  · rcases h.get? l with heq | ⟨-, hdir, hnone⟩
    · rw [heq] at hdir hnone
      exact .inr ⟨hfile, hdir, hnone⟩
    · exact .inr ⟨hfile, hdir, hnone⟩

theorem directory_iff (h : Rewritten t t') :
    t'.get? l = some .directory ↔ t.get? l = some .directory := by
  rcases h.get? l with heq | ⟨⟨c, hc⟩, hdir, -⟩
  · rw [heq]
  · simp [hc, hdir]

theorem isTree (h : Rewritten t t') (ht : t.IsTree) : t'.IsTree := by
  have hsome : ∀ l, t'.get? l ≠ none → t.get? l ≠ none := by
    intro l hl
    rcases h.get? l with heq | ⟨-, -, hnone⟩
    · exact heq ▸ hl
    · exact hnone
  exact ⟨fun l name hl => h.directory_iff.2 (ht.directory l name (hsome _ hl)),
    fun l name hl => ht.isName l name (hsome _ hl)⟩

/-- A directory that names lead to now is one they led to before: a way that meets a new file ends
there. -/
theorem leads (h : Rewritten t t') (hl : Leads t' n l names m)
    (hdir : t'.get? m = some .directory) : Leads t n l names m := by
  induction hl with
  | here => exact .here
  | stay hd _ ih => exact .stay (h.directory_iff.1 hd) (ih hdir)
  | up hd _ ih => exact .up (h.directory_iff.1 hd) (ih hdir)
  | @down n l m name rest node hd hdot hdots hlen hnode hlink hrest ih =>
    rcases h.get? (l ++ [name]) with heq | ⟨⟨c, hc⟩, -, -⟩
    · exact .down (h.directory_iff.1 hd) hdot hdots hlen (heq ▸ hnode) hlink (ih hdir)
    · cases rest with
      | nil =>
        cases hrest
        rw [hc] at hdir
        nomatch hdir
      | cons s rest =>
        have := hrest.directory_of_cons
        rw [hc] at this
        nomatch this
  | @through n l m name rest target hd hdot hdots hlen hnode _ ih =>
    rcases h.get? (l ++ [name]) with heq | ⟨⟨c, hc⟩, -, -⟩
    · exact .through (h.directory_iff.1 hd) hdot hdots hlen (heq ▸ hnode) (ih hdir)
    · rw [hc] at hnode
      nomatch hnode

theorem straight (h : Rewritten t t') (hd : t.Straight d) (hnamed : d.Named) : t'.Straight d := by
  intro c hc target htarget
  have hlink : t.get? c = some (.link target) := by
    rcases h.get? c with heq | ⟨⟨f, hf⟩, -, -⟩
    · exact heq ▸ htarget
    · rw [hf] at htarget
      nomatch htarget
  have hfalse := hd c hc target hlink
  refine Bool.eq_false_iff.2 fun htrue => Bool.eq_false_iff.1 hfalse ?_
  obtain ⟨m, hm, hdir⟩ := isDirectory_iff.1 htrue
  obtain ⟨hallowed, n, hn, hleads⟩ := (locate_path_eq_ok_iff (hnamed.above hc)).1 hm
  exact isDirectory_iff.2 ⟨m, (locate_path_eq_ok_iff (hnamed.above hc)).2
    ⟨hallowed, n, hn, h.leads hleads hdir⟩, h.directory_iff.1 hdir⟩

end Rewritten

/-! ## Trees that grow -/

/-- What a tree has keeps its kind, except that a link that leads nowhere may give way to a file;
what is new is no link. -/
structure Grows (t t' : FileTree) : Prop where
  current : t'.current = t.current
  directory : ∀ {l}, t.get? l = some .directory → t'.get? l = some .directory
  file : ∀ {l c}, t.get? l = some (.file c) → ∃ c', t'.get? l = some (.file c')
  link : ∀ {l target}, t.get? l = some (.link target) → t'.get? l = some (.link target) ∨
    (∃ c, t'.get? l = some (.file c)) ∧ ∀ n ≤ maxLinks, ∀ m, ¬ Leads t n [] l m
  noLink : ∀ {l target}, t'.get? l = some (.link target) → t.get? l = some (.link target)

namespace Grows

theorem refl (t : FileTree) : Grows t t :=
  ⟨rfl, id, fun h => ⟨_, h⟩, .inl, id⟩

theorem holds (h : Grows t t') (hnode : t.get? l = some node) (hlink : ∀ target, node ≠ .link target) :
    ∃ node', t'.get? l = some node' ∧ ∀ target, node' ≠ .link target := by
  cases node with
  | directory => exact ⟨_, h.directory hnode, nofun⟩
  | file c =>
    obtain ⟨c', hc'⟩ := h.file hnode
    exact ⟨_, hc', nofun⟩
  | link target => exact absurd rfl (hlink target)

/-- What names lead to they still lead to. -/
theorem leads (h : Grows t t') (hleads : Leads t n l names m) (hl : t.Reached l)
    (hn : n ≤ maxLinks) (hnames : ∀ s ∈ names, IsStep s) : Leads t' n l names m := by
  induction hleads with
  | here => exact .here
  | stay hdir _ ih =>
    exact .stay (h.directory hdir) (ih hl hn fun s hs => hnames s (List.mem_cons_of_mem _ hs))
  | up hdir _ ih =>
    exact .up (h.directory hdir) (ih (hl.of_isPrefix (List.dropLast_prefix _)) hn
      fun s hs => hnames s (List.mem_cons_of_mem _ hs))
  | down hdir hdot hdots hlen hnode hlink _ ih =>
    obtain ⟨node', hnode', hlink'⟩ := h.holds hnode hlink
    exact .down (h.directory hdir) hdot hdots hlen hnode' hlink'
      (ih (hl.concat hdir ⟨hnames _ List.mem_cons_self, hdot, hdots⟩ hlen ⟨_, hnode, hlink⟩) hn
        fun s hs => hnames s (List.mem_cons_of_mem _ hs))
  | @through n l m name rest target hdir hdot hdots hlen hnode hrest ih =>
    rcases h.link hnode with hnode' | ⟨-, hnowhere⟩
    · exact .through (h.directory hdir) hdot hdots hlen hnode'
        (ih (hl.start target) (by omega) (isStep_of_mem_through hnames))
    -- a link that gave way led nowhere, but here names were followed through it
    · obtain ⟨i, j, c, hij, hc, -⟩ := hrest.split
      rw [← List.append_nil target.steps] at hc
      have hway := hl.leads.append (.through hdir hdot hdots hlen hnode hc)
      exact absurd hway (hnowhere _ (by omega) c)

theorem trans (h : Grows t t') (h' : Grows t' t'') (ht : t.IsTree) : Grows t t'' where
  current := h'.current.trans h.current
  directory hl := h'.directory (h.directory hl)
  file hl := by
    obtain ⟨c, hc⟩ := h.file hl
    exact h'.file hc
  link {l target} hl := by
    rcases h.link hl with hlink | ⟨⟨c, hc⟩, hnowhere⟩
    · rcases h'.link hlink with hlink | ⟨hfile, hnowhere⟩
      · exact .inl hlink
      · refine .inr ⟨hfile, fun n hn m hleads => hnowhere n hn m ?_⟩
        refine h.leads hleads (reached_nil t) hn fun s hs => ?_
        exact (ht.named (by rw [hl]; nofun) s hs).1.1
    · exact .inr ⟨h'.file hc, hnowhere⟩
  noLink hl := h.noLink (h'.noLink hl)

end Grows

end FileTree

end AndroidFonts
