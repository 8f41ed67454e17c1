/-
# `AndroidFonts.Proofs.Tree.Following` — what it means that names lead somewhere

`FileTree.follow` looks names up with a bounded number of links.  `FileTree.Leads t n l names m` says
without a bound that `names` lead from `l` to `m` through exactly `n` links; `follow` finds such a way
if and only if there is one with few enough links (`follow_eq_ok_iff`).  The relation is a function
of its start (`Leads.unique`) and splits where its names split (`Leads.append_iff`), which is how
what is known of a path is carried to the paths around it.

A place that names lead to from the top is reached through directories alone (`FileTree.Reached`),
whatever links stood on the way.
-/
import AndroidFonts.Proofs.Tree.Spelling

namespace AndroidFonts

namespace FileTree

variable {t : FileTree} {k n : Nat} {l m : Location} {name : String} {names rest : List String}

/-! ## Where looking up ends -/

theorem follow_nil (t : FileTree) (k : Nat) (l : Location) : t.follow k l [] = .ok l := by
  rw [follow]
  rfl

theorem follow_cons_of_not_directory (h : t.get? l ≠ some .directory) :
    t.follow k l (name :: rest) = .error .notDirectory := by
  rw [follow]
  simp [advance, h]

/-! ## Ways -/

/-- `names` lead from `l` to `m` through `n` links. -/
inductive Leads (t : FileTree) : Nat → Location → List String → Location → Prop
  | here {l : Location} : Leads t 0 l [] l
  | stay {n : Nat} {l m : Location} {rest : List String} :
      t.get? l = some .directory → Leads t n l rest m → Leads t n l ("." :: rest) m
  | up {n : Nat} {l m : Location} {rest : List String} :
      t.get? l = some .directory → Leads t n l.dropLast rest m → Leads t n l (".." :: rest) m
  | down {n : Nat} {l m : Location} {name : String} {rest : List String} {node : FileNode} :
      t.get? l = some .directory → name ≠ "." → name ≠ ".." →
      Text.byteLength name.toList ≤ maxName →
      t.get? (l ++ [name]) = some node → (∀ target, node ≠ .link target) →
      Leads t n (l ++ [name]) rest m → Leads t n l (name :: rest) m
  | through {n : Nat} {l m : Location} {name : String} {rest : List String} {target : Path} :
      t.get? l = some .directory → name ≠ "." → name ≠ ".." →
      Text.byteLength name.toList ≤ maxName →
      t.get? (l ++ [name]) = some (.link target) →
      Leads t n (if target.isAbsolute then [] else l) (target.steps ++ rest) m →
      Leads t (n + 1) l (name :: rest) m

/-! ## One name at a time -/

theorem follow_stay (h : t.get? l = some .directory) :
    t.follow k l ("." :: rest) = t.follow k l rest := by
  rw [follow, follow]
  simp [advance, h]

theorem follow_up (h : t.get? l = some .directory) :
    t.follow k l (".." :: rest) = t.follow k l.dropLast rest := by
  rw [follow, follow]
  simp [advance, h]

theorem follow_cons_of_long (h : t.get? l = some .directory) (hdot : name ≠ ".")
    (hdots : name ≠ "..") (hlong : maxName < Text.byteLength name.toList) :
    t.follow k l (name :: rest) = .error .nameTooLong := by
  rw [follow]
  simp [advance, h, hdot, hdots, hlong]

theorem follow_cons_of_missing (h : t.get? l = some .directory) (hdot : name ≠ ".")
    (hdots : name ≠ "..") (hlen : Text.byteLength name.toList ≤ maxName)
    (hnone : t.get? (l ++ [name]) = none) :
    t.follow k l (name :: rest) = .error .notFound := by
  rw [follow]
  simp [advance, h, hdot, hdots, hnone, Nat.not_lt.2 hlen]

theorem follow_down {node : FileNode} (h : t.get? l = some .directory) (hdot : name ≠ ".")
    (hdots : name ≠ "..") (hlen : Text.byteLength name.toList ≤ maxName)
    (hnode : t.get? (l ++ [name]) = some node) (hlink : ∀ target, node ≠ .link target) :
    t.follow k l (name :: rest) = t.follow k (l ++ [name]) rest := by
  have hadvance : t.advance l (name :: rest) = t.advance (l ++ [name]) rest := by
    cases node with
    | link target => exact absurd rfl (hlink target)
    | directory => simp [advance, h, hdot, hdots, hnode, Nat.not_lt.2 hlen]
    | file c => simp [advance, h, hdot, hdots, hnode, Nat.not_lt.2 hlen]
  rw [follow, hadvance, ← follow]

theorem follow_through {target : Path} (h : t.get? l = some .directory) (hdot : name ≠ ".")
    (hdots : name ≠ "..") (hlen : Text.byteLength name.toList ≤ maxName)
    (hnode : t.get? (l ++ [name]) = some (.link target)) :
    t.follow (k + 1) l (name :: rest) =
      t.follow k (if target.isAbsolute then [] else l) (target.steps ++ rest) := by
  rw [follow]
  simp [advance, h, hdot, hdots, hnode, Nat.not_lt.2 hlen]

theorem follow_through_zero {target : Path} (h : t.get? l = some .directory) (hdot : name ≠ ".")
    (hdots : name ≠ "..") (hlen : Text.byteLength name.toList ≤ maxName)
    (hnode : t.get? (l ++ [name]) = some (.link target)) :
    t.follow 0 l (name :: rest) = .error .tooManyLinks := by
  rw [follow]
  simp [advance, h, hdot, hdots, hnode, Nat.not_lt.2 hlen]

/-- What can be met at a name. -/
inductive Met (t : FileTree) (l : Location) (name : String) : Prop
  | blocked : t.get? l ≠ some .directory → Met t l name
  | stay : t.get? l = some .directory → name = "." → Met t l name
  | up : t.get? l = some .directory → name = ".." → Met t l name
  | long : t.get? l = some .directory → name ≠ "." → name ≠ ".." →
      maxName < Text.byteLength name.toList → Met t l name
  | missing : t.get? l = some .directory → name ≠ "." → name ≠ ".." →
      Text.byteLength name.toList ≤ maxName → t.get? (l ++ [name]) = none → Met t l name
  | down (node : FileNode) : t.get? l = some .directory → name ≠ "." → name ≠ ".." →
      Text.byteLength name.toList ≤ maxName → t.get? (l ++ [name]) = some node →
      (∀ target, node ≠ .link target) → Met t l name
  | through (target : Path) : t.get? l = some .directory → name ≠ "." → name ≠ ".." →
      Text.byteLength name.toList ≤ maxName → t.get? (l ++ [name]) = some (.link target) →
      Met t l name

theorem met (t : FileTree) (l : Location) (name : String) : Met t l name := by
  by_cases hdir : t.get? l = some .directory
  · by_cases hdot : name = "."
    · exact .stay hdir hdot
    · by_cases hdots : name = ".."
      · exact .up hdir hdots
      · by_cases hlen : Text.byteLength name.toList ≤ maxName
        · cases hnode : t.get? (l ++ [name]) with
          | none => exact .missing hdir hdot hdots hlen hnode
          | some node =>
            cases node with
            | link target => exact .through target hdir hdot hdots hlen hnode
            | directory => exact .down _ hdir hdot hdots hlen hnode nofun
            | file c => exact .down _ hdir hdot hdots hlen hnode nofun
        · exact .long hdir hdot hdots (Nat.lt_of_not_le hlen)
  · exact .blocked hdir

/-! ## The relation and the procedure -/

/-- Following names is following the first of them, and the rest with the links that are left. -/
theorem Leads.follow_append (h : Leads t n l names m) (more : List String) : ∀ {k : Nat}, n ≤ k →
    t.follow k l (names ++ more) = t.follow (k - n) m more := by
  induction h with
  | here => exact fun _ => rfl
  | stay hdir _ ih => exact fun hk => (follow_stay hdir).trans (ih hk)
  | up hdir _ ih => exact fun hk => (follow_up hdir).trans (ih hk)
  | down hdir hdot hdots hlen hnode hlink _ ih =>
    exact fun hk => (follow_down hdir hdot hdots hlen hnode hlink).trans (ih hk)
  | through hdir hdot hdots hlen hnode _ ih =>
    intro k hk
    cases k with
    | zero => exact absurd hk (Nat.not_succ_le_zero _)
    | succ k =>
      have hrest := ih (Nat.le_of_succ_le_succ hk)
      rw [List.append_assoc] at hrest
      rw [Nat.add_sub_add_right]
      exact (follow_through hdir hdot hdots hlen hnode).trans hrest

theorem Leads.follow_eq_ok {k : Nat} (h : Leads t n l names m) (hk : n ≤ k) :
    t.follow k l names = .ok m := by
  have hall := h.follow_append [] hk
  rwa [List.append_nil, follow_nil] at hall

/-- A way with more links than may be followed is refused for its links. -/
theorem Leads.follow_eq_tooManyLinks (h : Leads t n l names m) : ∀ {k : Nat}, k < n →
    t.follow k l names = .error .tooManyLinks := by
  induction h with
  | here => exact fun hk => absurd hk (Nat.not_lt_zero _)
  | stay hdir _ ih => exact fun hk => (follow_stay hdir).trans (ih hk)
  | up hdir _ ih => exact fun hk => (follow_up hdir).trans (ih hk)
  | down hdir hdot hdots hlen hnode hlink _ ih =>
    exact fun hk => (follow_down hdir hdot hdots hlen hnode hlink).trans (ih hk)
  | through hdir hdot hdots hlen hnode _ ih =>
    intro k hk
    cases k with
    | zero => exact follow_through_zero hdir hdot hdots hlen hnode
    | succ k =>
      exact (follow_through hdir hdot hdots hlen hnode).trans (ih (Nat.lt_of_succ_lt_succ hk))

/-- Names that are followed lead somewhere.  A link puts the names of its target in front, so the
number of links left goes down before the number of names. -/
theorem leads_of_follow_eq_ok {k : Nat} {l m : Location} {names : List String}
    (h : t.follow k l names = .ok m) : ∃ n ≤ k, Leads t n l names m := by
  induction k using Nat.strong_induction_on generalizing l names with
  | _ k ihk =>
    induction names generalizing l with
    | nil =>
      rw [follow_nil] at h
      exact ⟨0, Nat.zero_le k, Except.ok.inj h ▸ .here⟩
    | cons name rest ih =>
      rcases met t l name with hdir | ⟨hdir, rfl⟩ | ⟨hdir, rfl⟩ | ⟨hdir, hdot, hdots, hlong⟩ |
        ⟨hdir, hdot, hdots, hlen, hnone⟩ | ⟨node, hdir, hdot, hdots, hlen, hnode, hlink⟩ |
        ⟨target, hdir, hdot, hdots, hlen, hnode⟩
      · rw [follow_cons_of_not_directory hdir] at h
        nomatch h
      · rw [follow_stay hdir] at h
        obtain ⟨n, hn, hleads⟩ := ih h
        exact ⟨n, hn, .stay hdir hleads⟩
      · rw [follow_up hdir] at h
        obtain ⟨n, hn, hleads⟩ := ih h
        exact ⟨n, hn, .up hdir hleads⟩
      · rw [follow_cons_of_long hdir hdot hdots hlong] at h
        nomatch h
      · rw [follow_cons_of_missing hdir hdot hdots hlen hnone] at h
        nomatch h
      · rw [follow_down hdir hdot hdots hlen hnode hlink] at h
        obtain ⟨n, hn, hleads⟩ := ih h
        exact ⟨n, hn, .down hdir hdot hdots hlen hnode hlink hleads⟩
      · cases k with
        | zero =>
          rw [follow_through_zero hdir hdot hdots hlen hnode] at h
          nomatch h
        | succ k =>
          rw [follow_through hdir hdot hdots hlen hnode] at h
          obtain ⟨n, hn, hleads⟩ := ihk k (Nat.lt_succ_self k) h
          exact ⟨n + 1, Nat.succ_le_succ hn, .through hdir hdot hdots hlen hnode hleads⟩

theorem follow_eq_ok_iff : t.follow k l names = .ok m ↔ ∃ n ≤ k, Leads t n l names m :=
  ⟨leads_of_follow_eq_ok, fun ⟨_, hn, h⟩ => h.follow_eq_ok hn⟩

/-- Names that cannot be followed cannot be followed with more names after them, for the same
reason. -/
theorem follow_append_of_error {k : Nat} {l : Location} {names : List String} {e : IoError}
    (h : t.follow k l names = .error e) (more : List String) :
    t.follow k l (names ++ more) = .error e := by
  induction k using Nat.strong_induction_on generalizing l names with
  | _ k ihk =>
    induction names generalizing l with
    | nil =>
      rw [follow_nil] at h
      nomatch h
    | cons name rest ih =>
      rw [List.cons_append]
      rcases met t l name with hdir | ⟨hdir, rfl⟩ | ⟨hdir, rfl⟩ | ⟨hdir, hdot, hdots, hlong⟩ |
        ⟨hdir, hdot, hdots, hlen, hnone⟩ | ⟨node, hdir, hdot, hdots, hlen, hnode, hlink⟩ |
        ⟨target, hdir, hdot, hdots, hlen, hnode⟩
      · rw [follow_cons_of_not_directory hdir] at h ⊢
        exact h
      · rw [follow_stay hdir] at h ⊢
        exact ih h
      · rw [follow_up hdir] at h ⊢
        exact ih h
      · rw [follow_cons_of_long hdir hdot hdots hlong] at h ⊢
        exact h
      · rw [follow_cons_of_missing hdir hdot hdots hlen hnone] at h ⊢
        exact h
      · rw [follow_down hdir hdot hdots hlen hnode hlink] at h ⊢
        exact ih h
      · cases k with
        | zero =>
          rw [follow_through_zero hdir hdot hdots hlen hnode] at h ⊢
          exact h
        | succ k =>
          rw [follow_through hdir hdot hdots hlen hnode] at h ⊢
          rw [← List.append_assoc]
          exact ihk k (Nat.lt_succ_self k) h

namespace Leads

/-- The relation is a function of where it starts. -/
theorem unique {n' : Nat} {m' : Location} (h : Leads t n l names m)
    (h' : Leads t n' l names m') : n = n' ∧ m = m' := by
  have hle : ∀ {n n' : Nat} {m m' : Location}, Leads t n l names m → Leads t n' l names m' →
      n' ≤ n → n = n' ∧ m = m' := by
    intro n n' m m' h h' hn
    have hm := h'.follow_eq_ok hn
    rw [h.follow_eq_ok (Nat.le_refl n)] at hm
    refine ⟨?_, Except.ok.inj hm⟩
    rcases Nat.lt_or_eq_of_le hn with hlt | heq
    · have := h.follow_eq_tooManyLinks hlt
      rw [h'.follow_eq_ok (Nat.le_refl n')] at this
      nomatch this
    · exact heq.symm
  rcases Nat.le_total n' n with hn | hn
  · exact hle h h' hn
  · obtain ⟨hnn, hmm⟩ := hle h' h hn
    exact ⟨hnn.symm, hmm.symm⟩

theorem append {n' : Nat} {m' : Location} (h : Leads t n l names m) (h' : Leads t n' m rest m') :
    Leads t (n + n') l (names ++ rest) m' := by
  induction h with
  | here => rwa [Nat.zero_add]
  | stay hdir _ ih => exact .stay hdir (ih h')
  | up hdir _ ih => exact .up hdir (ih h')
  | down hdir hdot hdots hlen hnode hlink _ ih =>
    exact .down hdir hdot hdots hlen hnode hlink (ih h')
  | through hdir hdot hdots hlen hnode _ ih =>
    have := ih h'
    rw [List.append_assoc] at this
    rw [Nat.add_right_comm]
    exact .through hdir hdot hdots hlen hnode this

/-- A way along two lists of names is a way along the first and one along the second. -/
theorem split {as bs : List String} (h : Leads t n l (as ++ bs) m) :
    ∃ i j c, n = i + j ∧ Leads t i l as c ∧ Leads t j c bs m := by
  generalize hnames : as ++ bs = names at h
  induction h generalizing as with
  | here =>
    obtain ⟨rfl, rfl⟩ := List.append_eq_nil_iff.1 hnames
    exact ⟨0, 0, _, rfl, .here, .here⟩
  | @stay n l m rest hdir hrest ih =>
    rcases as with _ | ⟨a, as⟩
    · obtain rfl : bs = "." :: rest := hnames
      exact ⟨0, n, l, (Nat.zero_add n).symm, .here, .stay hdir hrest⟩
    · injection hnames with hname has
      obtain ⟨i, j, c, hn, has, hbs⟩ := ih has
      exact ⟨i, j, c, hn, hname ▸ .stay hdir has, hbs⟩
  | @up n l m rest hdir hrest ih =>
    rcases as with _ | ⟨a, as⟩
    · obtain rfl : bs = ".." :: rest := hnames
      exact ⟨0, n, l, (Nat.zero_add n).symm, .here, .up hdir hrest⟩
    · injection hnames with hname has
      obtain ⟨i, j, c, hn, has, hbs⟩ := ih has
      exact ⟨i, j, c, hn, hname ▸ .up hdir has, hbs⟩
  | @down n l m name rest node hdir hdot hdots hlen hnode hlink hrest ih =>
    rcases as with _ | ⟨a, as⟩
    · obtain rfl : bs = name :: rest := hnames
      exact ⟨0, n, l, (Nat.zero_add n).symm, .here,
        .down hdir hdot hdots hlen hnode hlink hrest⟩
    · injection hnames with hname has
      obtain ⟨i, j, c, hn, has, hbs⟩ := ih has
      exact ⟨i, j, c, hn, hname ▸ .down hdir hdot hdots hlen hnode hlink has, hbs⟩
  | @through n l m name rest target hdir hdot hdots hlen hnode hrest ih =>
    rcases as with _ | ⟨a, as⟩
    · obtain rfl : bs = name :: rest := hnames
      exact ⟨0, n + 1, l, (Nat.zero_add _).symm, .here,
        .through hdir hdot hdots hlen hnode hrest⟩
    · injection hnames with hname has
      obtain ⟨i, j, c, hn, has, hbs⟩ := @ih (target.steps ++ as) (by
        rw [List.append_assoc]
        exact congrArg _ has)
      exact ⟨i + 1, j, c, by omega, hname ▸ .through hdir hdot hdots hlen hnode has, hbs⟩

theorem append_iff {as bs : List String} :
    Leads t n l (as ++ bs) m ↔ ∃ i j c, n = i + j ∧ Leads t i l as c ∧ Leads t j c bs m :=
  ⟨split, fun ⟨_, _, _, hn, has, hbs⟩ => hn ▸ has.append hbs⟩

end Leads

/-! ## Places reached through directories -/

/-- Whether a place holds something that is no link. -/
def Holds (t : FileTree) (l : Location) : Prop :=
  ∃ node, t.get? l = some node ∧ ∀ target, node ≠ .link target

/-- A place that is reached from the top through directories alone. -/
structure Reached (t : FileTree) (l : Location) : Prop where
  named : l.Named
  short : ∀ s ∈ l, Text.byteLength s.toList ≤ maxName
  above : ∀ d, d <+: l → d ≠ l → t.get? d = some .directory
  holds : t.Holds l

theorem get?_nil (t : FileTree) : t.get? [] = some .directory := by simp [get?]

theorem holds_of_directory (h : t.get? l = some .directory) : t.Holds l := ⟨_, h, nofun⟩

theorem holds_of_file {c : Contents} (h : t.get? l = some (.file c)) : t.Holds l := ⟨_, h, nofun⟩

theorem reached_nil (t : FileTree) : t.Reached [] where
  named := Location.named_nil
  short := nofun
  above _ hd hne := absurd (List.prefix_nil.1 hd) hne
  holds := holds_of_directory t.get?_nil

namespace Reached

theorem of_isPrefix {d : Location} (h : t.Reached l) (hd : d <+: l) : t.Reached d := by
  by_cases heq : d = l
  · exact heq ▸ h
  · exact {
      named := h.named.above hd
      short := fun s hs => h.short s (hd.subset hs)
      above := fun e he _ => h.above e (he.trans hd) fun hel =>
        heq (hd.eq_of_length_le (hel ▸ he.length_le))
      holds := holds_of_directory (h.above d hd heq) }

theorem concat (h : t.Reached l) (hdir : t.get? l = some .directory) (hname : IsName name)
    (hlen : Text.byteLength name.toList ≤ maxName) (hholds : t.Holds (l ++ [name])) :
    t.Reached (l ++ [name]) where
  named := h.named.concat hname
  short s hs := by
    rcases List.mem_append.1 hs with hs | hs
    · exact h.short s hs
    · exact List.mem_singleton.1 hs ▸ hlen
  above d hd hne := by
    rcases List.prefix_concat_iff.1 hd with heq | hd
    · exact absurd heq hne
    · by_cases hdl : d = l
      · exact hdl ▸ hdir
      · exact h.above d hd hdl
  holds := hholds

/-- Where the names in the target of a link are followed from. -/
theorem start (h : t.Reached l) (target : Path) :
    t.Reached (if target.isAbsolute then [] else l) := by
  split
  · exact reached_nil t
  · exact h

/-- Its own names lead to a place that is reached through directories, without a link. -/
theorem leads (h : t.Reached l) : Leads t 0 [] l l := by
  induction l using List.reverseRecOn with
  | nil => exact .here
  | append_singleton d name ih =>
    have hd : d <+: d ++ [name] := List.prefix_append _ _
    have hdir := h.above d hd (by simp)
    obtain ⟨node, hnode, hlink⟩ := h.holds
    have hname := h.named name (by simp)
    exact (ih (h.of_isPrefix hd)).append
      (.down hdir hname.2.1 hname.2.2 (h.short name (by simp)) hnode hlink .here)

/-- Below a place that is reached through directories, names lead on without a link. -/
theorem leads_append (h : t.Reached (l ++ names)) : Leads t 0 l names (l ++ names) := by
  obtain ⟨i, j, c, hij, hc, hnames⟩ := h.leads.split
  obtain ⟨rfl, rfl⟩ := (h.of_isPrefix (List.prefix_append _ _)).leads.unique hc
  obtain rfl : j = 0 := by omega
  exact hnames

end Reached

theorem isStep_of_mem_through {target : Path} (h : ∀ s ∈ name :: rest, IsStep s) :
    ∀ s ∈ target.steps ++ rest, IsStep s := by
  intro s hs
  rcases List.mem_append.1 hs with hs | hs
  · exact Path.isStep_of_mem_steps hs
  · exact h s (List.mem_cons_of_mem _ hs)

/-- What names lead to from a place that is reached through directories is so reached. -/
theorem Leads.reached (h : Leads t n l names m) (hl : t.Reached l)
    (hnames : ∀ s ∈ names, IsStep s) : t.Reached m := by
  induction h with
  | here => exact hl
  | stay _ _ ih => exact ih hl fun s hs => hnames s (List.mem_cons_of_mem _ hs)
  | up _ _ ih =>
    exact ih (hl.of_isPrefix (List.dropLast_prefix _))
      fun s hs => hnames s (List.mem_cons_of_mem _ hs)
  | down hdir hdot hdots hlen hnode hlink _ ih =>
    exact ih (hl.concat hdir ⟨hnames _ List.mem_cons_self, hdot, hdots⟩ hlen ⟨_, hnode, hlink⟩)
      fun s hs => hnames s (List.mem_cons_of_mem _ hs)
  | through _ _ _ _ _ _ ih => exact ih (hl.start _) (isStep_of_mem_through hnames)

theorem Leads.directory_of_cons (h : Leads t n l (name :: rest) m) : t.get? l = some .directory := by
  cases h <;> assumption

/-- One name leads to what stands under it, or on through a link that stands there. -/
theorem Leads.singleton_cases (hname : IsName name) (h : Leads t n l [name] m) :
    t.get? l = some .directory ∧ Text.byteLength name.toList ≤ maxName ∧
      ((n = 0 ∧ m = l ++ [name] ∧ t.Holds (l ++ [name])) ∨
        ∃ target, t.get? (l ++ [name]) = some (.link target)) := by
  cases h with
  | stay => exact absurd rfl hname.2.1
  | up => exact absurd rfl hname.2.2
  | down hdir _ _ hlen hnode hlink hrest =>
    cases hrest
    exact ⟨hdir, hlen, .inl ⟨rfl, rfl, _, hnode, hlink⟩⟩
  | through hdir _ _ hlen hnode _ => exact ⟨hdir, hlen, .inr ⟨_, hnode⟩⟩

/-- Names that lead somewhere are no longer than the system takes. -/
theorem Leads.short (h : Leads t n l names m) : ∀ s ∈ names, Text.byteLength s.toList ≤ maxName := by
  induction h with
  | here => exact nofun
  | stay _ _ ih => exact List.forall_mem_cons.2 ⟨by decide +kernel, ih⟩
  | up _ _ ih => exact List.forall_mem_cons.2 ⟨by decide +kernel, ih⟩
  | down _ _ _ hlen _ _ _ ih => exact List.forall_mem_cons.2 ⟨hlen, ih⟩
  | through _ _ _ hlen _ _ ih =>
    exact List.forall_mem_cons.2 ⟨hlen, fun s hs => ih s (List.mem_append_right _ hs)⟩

theorem leads_dots (hdir : t.get? l = some .directory) (k : Nat) :
    Leads t 0 l (List.replicate k ".") l := by
  induction k with
  | zero => exact .here
  | succ k ih => exact .stay hdir ih

theorem leads_stay_iff (hdir : t.get? l = some .directory) :
    Leads t n l ("." :: rest) m ↔ Leads t n l rest m := by
  constructor
  · intro h
    generalize hnames : "." :: rest = names at h
    cases h with
    | here => nomatch hnames
    | stay _ h => exact (List.cons.inj hnames).2 ▸ h
    | up => exact absurd (List.cons.inj hnames).1 (by decide)
    | down _ hdot => exact absurd (List.cons.inj hnames).1.symm hdot
    | through _ hdot => exact absurd (List.cons.inj hnames).1.symm hdot
  · exact .stay hdir

theorem eq_of_leads_dots {k : Nat} (h : Leads t n l (List.replicate k ".") m) : n = 0 ∧ m = l := by
  cases k with
  | zero =>
    cases h
    exact ⟨rfl, rfl⟩
  | succ k =>
    have hdir := Leads.directory_of_cons h
    obtain ⟨rfl, rfl⟩ := (leads_dots hdir (k + 1)).unique h
    exact ⟨rfl, rfl⟩

/-- Names that meet no link and no dots spell the place they lead to. -/
theorem Leads.eq_append (h : Leads t n l names m) (hnames : Location.Named names)
    (hlinks : ∀ d, d <+: names → ∀ target, t.get? (l ++ d) ≠ some (.link target)) :
    n = 0 ∧ m = l ++ names := by
  induction h with
  | here => exact ⟨rfl, (List.append_nil _).symm⟩
  | stay => exact absurd rfl (hnames _ List.mem_cons_self).2.1
  | up => exact absurd rfl (hnames _ List.mem_cons_self).2.2
  | @down n l m name rest node hdir hdot hdots hlen hnode hlink _ ih =>
    obtain ⟨hn, hm⟩ := ih (fun s hs => hnames s (List.mem_cons_of_mem _ hs)) fun d hd => by
      rw [List.append_assoc]
      exact hlinks _ ((List.cons_prefix_cons).2 ⟨rfl, hd⟩)
    exact ⟨hn, by rw [hm, List.append_assoc]; rfl⟩
  | @through n l m name rest target hdir hdot hdots hlen hnode _ ih =>
    exact absurd hnode (hlinks [name] ((List.cons_prefix_cons).2 ⟨rfl, List.nil_prefix⟩) target)

/-! ## Paths that lead somewhere -/

/-- Whether the system takes a path at all. -/
def Allowed (p : Path) : Prop := '\x00' ∉ p.text.toList ∧ p.isTooLong = false ∧ p.text ≠ ""

theorem Allowed.locate {p : Path} (h : Allowed p) (t : FileTree) :
    t.locate p = t.follow maxLinks (t.startOf p) p.steps := by
  rw [FileTree.locate, if_neg h.1, h.2.1, if_neg Bool.false_ne_true, resolve, if_neg h.1,
    if_neg h.2.2]

theorem locate_eq_ok_iff {p : Path} :
    t.locate p = .ok m ↔ Allowed p ∧ ∃ n ≤ maxLinks, Leads t n (t.startOf p) p.steps m := by
  rw [← follow_eq_ok_iff, locate, resolve, Allowed]
  by_cases hnul : '\x00' ∈ p.text.toList
  · simp [hnul]
  · by_cases hlong : p.isTooLong = true
    · simp [hnul, hlong]
    · by_cases hempty : p.text = ""
      · simp [hlong, hempty]
      · simp [hnul, hlong, hempty]

theorem resolve_eq_ok_iff {p : Path} :
    t.resolve p = .ok m ↔ ('\x00' ∉ p.text.toList ∧ p.text ≠ "") ∧
      ∃ n ≤ maxLinks, Leads t n (t.startOf p) p.steps m := by
  rw [← follow_eq_ok_iff, resolve]
  by_cases hnul : '\x00' ∈ p.text.toList
  · simp [hnul]
  · by_cases hempty : p.text = ""
    · simp [hempty]
    · simp [hnul, hempty]

theorem resolve_of_locate {p : Path} (h : t.locate p = .ok m) : t.resolve p = .ok m := by
  obtain ⟨⟨hnul, -, hempty⟩, hleads⟩ := locate_eq_ok_iff.1 h
  exact resolve_eq_ok_iff.2 ⟨⟨hnul, hempty⟩, hleads⟩

theorem hasPath_iff {p : Path} : t.hasPath p = true ↔ ∃ m, t.locate p = .ok m := by
  rw [hasPath]
  cases t.locate p with
  | error e => simp [Except.toOption]
  | ok m => simp [Except.toOption]

theorem startOf_of_isAbsolute {p : Path} (h : p.isAbsolute = true) : t.startOf p = [] :=
  if_pos h

/-- The path of a place leads where the names of the place lead. -/
theorem locate_path_eq_ok_iff (hl : l.Named) :
    t.locate l.path = .ok m ↔ Allowed l.path ∧ ∃ n ≤ maxLinks, Leads t n [] l m := by
  rw [locate_eq_ok_iff, startOf_of_isAbsolute l.isAbsolute_path, Location.steps_path hl]
  by_cases hne : l = []
  · subst hne
    simp [leads_stay_iff t.get?_nil]
  · simp [hne]

theorem isTooLong_of_isPrefix {p q : Path} (hpq : q.text.toList <+: p.text.toList)
    (h : p.isTooLong = false) : q.isTooLong = false := by
  obtain ⟨rest, hrest⟩ := hpq
  simp only [Path.isTooLong, decide_eq_false_iff_not, ← hrest, Text.byteLength_append] at h ⊢
  omega

theorem Allowed.of_isPrefix {p q : Path} (h : Allowed p) (hq : q.text ≠ "")
    (hpq : q.text.toList <+: p.text.toList) : Allowed q :=
  ⟨fun hmem => h.1 (hpq.subset hmem), isTooLong_of_isPrefix hpq h.2.1, hq⟩

/-- Above a place that a path leads to, its path leads somewhere too. -/
theorem hasPath_of_isPrefix {d : Location} (hl : l.Named) (hd : d <+: l) (h : t.hasPath l.path = true) :
    t.hasPath d.path = true := by
  obtain ⟨m, hm⟩ := hasPath_iff.1 h
  obtain ⟨hallowed, n, hn, hleads⟩ := (locate_path_eq_ok_iff hl).1 hm
  obtain ⟨e, rfl⟩ := hd
  obtain ⟨i, j, c, hij, hc, -⟩ := hleads.split
  exact hasPath_iff.2 ⟨c, (locate_path_eq_ok_iff (hl.above (List.prefix_append _ _))).2
    ⟨hallowed.of_isPrefix d.path_text_ne (Location.path_prefix_path (List.prefix_append _ _)),
      i, by omega, hc⟩⟩

/-- What a path leads to is reached through directories. -/
theorem reached_of_resolve {p : Path} (hp : p.isAbsolute = true) (h : t.resolve p = .ok m) : t.Reached m := by
  obtain ⟨-, n, -, hleads⟩ := resolve_eq_ok_iff.1 h
  rw [startOf_of_isAbsolute hp] at hleads
  exact hleads.reached (reached_nil t) fun s hs => Path.isStep_of_mem_steps hs

theorem hasPath_top (t : FileTree) : t.hasPath (Location.path []) = true :=
  hasPath_iff.2 ⟨[], (locate_path_eq_ok_iff Location.named_nil).2
    ⟨⟨by decide +kernel, by decide +kernel, by decide +kernel⟩, 0, Nat.zero_le _, .here⟩⟩

end FileTree

end AndroidFonts
