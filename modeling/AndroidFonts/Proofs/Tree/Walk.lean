/-
# `AndroidFonts.Proofs.Tree.Walk` — what a walk finds first

A walk takes the names of each directory in order, so of the files it is searched for it finds the
one whose names come first, whatever else is there.  Two trees that have the same files of the kind
that is searched for below a place thus have the same first one there (`find?_walk_congr`).

The walk is bounded by the number of places of a tree; no file lies deeper
(`FileTree.IsTree.length_le_nodes`), so it misses none (`mem_walk_iff`).
-/
import AndroidFonts.Proofs.Tree.Shape
import Mathlib.Data.List.Nodup
import Mathlib.Data.List.Perm.Subperm

namespace AndroidFonts

namespace FileTree

variable {t t' : FileTree} {l names : Location} {name : String} {depth depth' : Nat}

/-! ## The names in a directory -/

theorem get?_ne_none_iff (hl : l ≠ []) : t.get? l ≠ none ↔ l ∈ t.nodes.map Prod.fst := by
  rw [get?, if_neg hl]
  induction t.nodes with
  | nil => simp
  | cons x nodes ih =>
    obtain ⟨k, node⟩ := x
    by_cases h : l = k
    · simp [h]
    · rw [List.lookup_cons, beq_eq_false_iff_ne.2 h]
      simp only [List.map_cons, List.mem_cons, h, false_or]
      exact ih

theorem mem_namesIn_iff : name ∈ t.namesIn l ↔ t.get? (l ++ [name]) ≠ none := by
  rw [get?_ne_none_iff (by simp), namesIn, List.mem_mergeSort, List.mem_filterMap, List.mem_map]
  constructor
  · rintro ⟨⟨k, node⟩, hmem, h⟩
    refine ⟨_, hmem, ?_⟩
    rcases List.eq_nil_or_concat' k with rfl | ⟨d, last, rfl⟩
    · simp at h
    · simp only [List.dropLast_concat, List.getLast?_concat] at h
      split at h
      · rename_i hdl
        rw [hdl, Option.some.inj h]
      · nomatch h
  · rintro ⟨⟨k, node⟩, hmem, rfl⟩
    exact ⟨_, hmem, by simp⟩

theorem pairwise_namesIn (t : FileTree) (l : Location) : (t.namesIn l).Pairwise (· ≤ ·) := by
  have hle : ∀ a b : String, (!decide (b < a)) = true ↔ a ≤ b := by
    intro a b
    rw [Bool.not_eq_true', decide_eq_false_iff_not]
    exact String.not_lt
  have hsorted : (t.namesIn l).Pairwise fun a b => (!decide (b < a)) = true :=
    List.pairwise_mergeSort
      (fun a b c hab hbc => (hle a c).2 (String.le_trans ((hle a b).1 hab) ((hle b c).1 hbc)))
      (fun a b => by
        rw [Bool.or_eq_true, hle, hle]
        exact String.le_total a b) _
  exact hsorted.imp fun h => (hle _ _).1 h

/-- The first hit in an ordered list is a hit on the least name that has one. -/
theorem exists_least_of_findSome? {β : Type} {f : String → Option β} {as : List String} {b : β}
    (has : as.Pairwise (· ≤ ·)) (h : as.findSome? f = some b) :
    ∃ a ∈ as, f a = some b ∧ ∀ c ∈ as, f c ≠ none → a ≤ c := by
  obtain ⟨front, a, back, rfl, ha, hnone⟩ := List.findSome?_eq_some_iff.1 h
  refine ⟨a, by simp, ha, fun c hc hfc => ?_⟩
  rcases List.mem_append.1 hc with hc | hc
  · exact absurd (hnone c hc) hfc
  · rcases List.mem_cons.1 hc with rfl | hc
    · exact String.le_refl _
    · exact List.rel_of_pairwise_cons (List.pairwise_append.1 has).2.1 hc

/-- Of two ordered lists with the same hits, the first hit is the same. -/
theorem findSome?_congr_of_pairwise {β : Type} {f : String → Option β} {as bs : List String}
    (has : as.Pairwise (· ≤ ·)) (hbs : bs.Pairwise (· ≤ ·))
    (h : ∀ a b, f a = some b → a ∈ as ∧ a ∈ bs) : as.findSome? f = bs.findSome? f := by
  cases ha : as.findSome? f with
  | none =>
    refine (List.findSome?_eq_none_iff.2 fun c hc => ?_).symm
    cases hfc : f c with
    | none => rfl
    | some b =>
      have := List.findSome?_eq_none_iff.1 ha c (h c b hfc).1
      rw [hfc] at this
      nomatch this
  | some b =>
    obtain ⟨a, -, hfa, hamin⟩ := exists_least_of_findSome? has ha
    cases hb : bs.findSome? f with
    | none =>
      have := List.findSome?_eq_none_iff.1 hb a (h a b hfa).2
      rw [hfa] at this
      nomatch this
    | some b' =>
      obtain ⟨a', -, hfa', hamin'⟩ := exists_least_of_findSome? hbs hb
      obtain rfl : a = a' := String.le_antisymm
        (hamin a' (h a' b' hfa').1 (by rw [hfa']; nofun))
        (hamin' a (h a b hfa).2 (by rw [hfa]; nofun))
      rw [← hfa, ← hfa']

/-! ## The files below a directory -/

/-- No place below `l` is deeper than so many names. -/
def Deep (t : FileTree) (l : Location) (depth : Nat) : Prop :=
  ∀ names, t.get? (l ++ names) ≠ none → names.length ≤ depth

theorem Deep.below (h : t.Deep l (depth + 1)) (name : String) : t.Deep (l ++ [name]) depth := by
  intro names hnames
  have := h (name :: names) (by rwa [List.append_assoc] at hnames)
  simpa using this

/-- The places on the way to something are places of the tree, so there are at least so many. -/
theorem IsTree.length_le_nodes (ht : t.IsTree) (hl : t.get? l ≠ none) :
    l.length ≤ t.nodes.length := by
  have hsubset : (List.range l.length).map (fun i => l.take (i + 1)) ⊆ t.nodes.map Prod.fst := by
    intro d hd
    obtain ⟨i, hi, rfl⟩ := List.mem_map.1 hd
    have hne : l.take (i + 1) ≠ [] := by
      rintro heq
      have := List.mem_range.1 hi
      rcases List.take_eq_nil_iff.1 heq with h | rfl
      · nomatch h
      · nomatch this
    rw [← get?_ne_none_iff hne]
    by_cases heq : l.take (i + 1) = l
    · rwa [heq]
    · rw [ht.above hl (List.take_prefix _ _) heq]
      nofun
  have hnodup : ((List.range l.length).map (fun i => l.take (i + 1))).Nodup := by
    refine List.Nodup.map_on (fun i hi j hj (hij : l.take (i + 1) = l.take (j + 1)) => ?_) List.nodup_range
    have := congrArg List.length hij
    simp only [List.length_take, List.mem_range] at this hi hj
    omega
  have := (List.subperm_of_subset hnodup hsubset).length_le
  simpa using this

theorem IsTree.deep_nodes (ht : t.IsTree) (l : Location) : t.Deep l t.nodes.length := by
  intro names hnames
  have := ht.length_le_nodes hnames
  rw [List.length_append] at this
  omega

theorem mem_namesIn_of_below (ht : t.IsTree) {rest : Location}
    (h : t.get? (l ++ name :: rest) ≠ none) : name ∈ t.namesIn l := by
  rw [mem_namesIn_iff]
  cases rest with
  | nil => exact h
  | cons s rest =>
    have hsplit : l ++ name :: s :: rest = (l ++ [name]) ++ s :: rest := by simp
    rw [ht.above h (hsplit ▸ List.prefix_append _ _) (by simp)]
    nofun

/-- The files that a walk finds under one name. -/
def filesUnder (t : FileTree) (depth : Nat) (l : Location) (name : String) : List Location :=
  match t.get? (l ++ [name]) with
  | some (.file _) => [[name]]
  | some .directory => (t.filesBelow depth (l ++ [name])).map (name :: ·)
  | _ => []

theorem filesBelow_succ (t : FileTree) (depth : Nat) (l : Location) :
    t.filesBelow (depth + 1) l = (t.namesIn l).flatMap (t.filesUnder depth l) := rfl

/-- A walk that is deep enough comes to every file below. -/
theorem mem_filesBelow_iff (ht : t.IsTree) (hdeep : t.Deep l depth) :
    names ∈ t.filesBelow depth l ↔ names ≠ [] ∧ ∃ c, t.get? (l ++ names) = some (.file c) := by
  induction depth generalizing l names with
  | zero =>
    simp only [filesBelow, List.not_mem_nil, false_iff]
    rintro ⟨hne, c, hc⟩
    have := hdeep names (by simp [hc])
    exact hne (List.eq_nil_of_length_eq_zero (by omega))
  | succ depth ih =>
    simp only [filesBelow_succ, List.mem_flatMap, filesUnder]
    constructor
    · rintro ⟨name, -, h⟩
      split at h
      · rename_i c hc
        obtain rfl := List.mem_singleton.1 h
        exact ⟨by simp, c, hc⟩
      · obtain ⟨rest, hrest, rfl⟩ := List.mem_map.1 h
        obtain ⟨-, c, hc⟩ := (ih (hdeep.below name)).1 hrest
        exact ⟨by simp, c, by rwa [List.append_assoc] at hc⟩
      · cases h
    · rintro ⟨hne, c, hc⟩
      obtain ⟨name, rest, rfl⟩ := List.exists_cons_of_ne_nil hne
      have hsome : t.get? (l ++ name :: rest) ≠ none := by simp [hc]
      cases rest with
      | nil => exact ⟨name, mem_namesIn_iff.2 hsome, by simp [hc]⟩
      | cons s rest =>
        have hsplit : l ++ name :: s :: rest = (l ++ [name]) ++ s :: rest := by simp
        have hdir : t.get? (l ++ [name]) = some .directory :=
          ht.above hsome (hsplit ▸ List.prefix_append _ _) (by simp)
        refine ⟨name, mem_namesIn_iff.2 (by simp [hdir]), ?_⟩
        simp only [hdir]
        refine List.mem_map.2 ⟨s :: rest, (ih (hdeep.below name)).2 ⟨by simp, c, ?_⟩, rfl⟩
        rwa [← hsplit]

theorem mem_walk_iff (ht : t.IsTree) :
    names ∈ t.walk l ↔ names ≠ [] ∧ ∃ c, t.get? (l ++ names) = some (.file c) :=
  mem_filesBelow_iff ht (ht.deep_nodes l)

theorem mem_filesUnder_iff (ht : t.IsTree) (hdeep : t.Deep l (depth + 1)) :
    names ∈ t.filesUnder depth l name ↔
      ∃ rest, names = name :: rest ∧ ∃ c, t.get? (l ++ names) = some (.file c) := by
  unfold filesUnder
  constructor
  · intro h
    split at h
    · rename_i c hc
      obtain rfl := List.mem_singleton.1 h
      exact ⟨[], rfl, c, hc⟩
    · obtain ⟨rest, hrest, rfl⟩ := List.mem_map.1 h
      obtain ⟨-, c, hc⟩ := (mem_filesBelow_iff ht (hdeep.below name)).1 hrest
      exact ⟨rest, rfl, c, by rwa [List.append_assoc] at hc⟩
    · nomatch h
  · rintro ⟨rest, rfl, c, hc⟩
    cases rest with
    | nil => simp [hc]
    | cons s rest =>
      have hsplit : l ++ name :: s :: rest = (l ++ [name]) ++ s :: rest := by simp
      rw [hsplit] at hc
      have hdir : t.get? (l ++ [name]) = some .directory :=
        ht.above (by rw [hc]; nofun) (List.prefix_append _ _) (by simp)
      simp only [hdir]
      exact List.mem_map.2 ⟨_, (mem_filesBelow_iff ht (hdeep.below name)).2 ⟨by simp, c, hc⟩, rfl⟩

section
variable {p : Location → Bool}

/-- Two trees have the same files of a kind below a place. -/
def SameFiles (p : Location → Bool) (t t' : FileTree) (l : Location) : Prop :=
  ∀ names, p names = true → ((∃ c, t.get? (l ++ names) = some (.file c)) ↔
    ∃ c, t'.get? (l ++ names) = some (.file c))

theorem SameFiles.symm (h : SameFiles p t t' l) : SameFiles p t' t l :=
  fun names hnames => (h names hnames).symm

theorem SameFiles.below (h : SameFiles p t t' l) (name : String) :
    SameFiles (fun names => p (name :: names)) t t' (l ++ [name]) := by
  intro names hnames
  rw [List.append_assoc]
  exact h (name :: names) hnames

/-- Where there is nothing below a place, nothing is found. -/
theorem find?_eq_none_of_deep_zero (ht' : t'.IsTree) (hdeep : t.Deep l 0)
    (hdeep' : t'.Deep l depth') (h : SameFiles p t t' l) :
    (t'.filesBelow depth' l).find? p = none := by
  refine List.find?_eq_none.2 fun names hnames hp => ?_
  obtain ⟨hne, hc⟩ := (mem_filesBelow_iff ht' hdeep').1 hnames
  obtain ⟨c, hc⟩ := (h names hp).2 hc
  exact hne (List.eq_nil_of_length_eq_zero (Nat.le_zero.1 (hdeep names (by rw [hc]; nofun))))

theorem find?_filesUnder_eq_none (ht : t.IsTree) (hdeep : t.Deep l (depth + 1))
    (h : ∀ rest, p (name :: rest) = true → ¬ ∃ c, t.get? (l ++ name :: rest) = some (.file c)) :
    (t.filesUnder depth l name).find? p = none := by
  refine List.find?_eq_none.2 fun names hnames hp => ?_
  obtain ⟨rest, rfl, hc⟩ := (mem_filesUnder_iff ht hdeep).1 hnames
  exact h rest hp hc

/-- What is found under a name is the same, if what is found in the directory of that name is. -/
theorem find?_filesUnder_congr (ht : t.IsTree) (ht' : t'.IsTree) (hdeep : t.Deep l (depth + 1))
    (hdeep' : t'.Deep l (depth' + 1)) (h : SameFiles p t t' l)
    (hbelow : (t.filesBelow depth (l ++ [name])).find? (fun names => p (name :: names)) =
      (t'.filesBelow depth' (l ++ [name])).find? fun names => p (name :: names)) :
    (t.filesUnder depth l name).find? p = (t'.filesUnder depth' l name).find? p := by
  by_cases hex : ∃ rest, p (name :: rest) = true ∧ ∃ c, t.get? (l ++ name :: rest) = some (.file c)
  · obtain ⟨rest, hp, c, hc⟩ := hex
    obtain ⟨c', hc'⟩ := (h _ hp).1 ⟨c, hc⟩
    cases rest with
    | nil => simp [filesUnder, hc, hc']
    | cons s rest =>
      have hsplit : l ++ name :: s :: rest = (l ++ [name]) ++ s :: rest := by simp
      rw [hsplit] at hc hc'
      have hdir : t.get? (l ++ [name]) = some .directory :=
        ht.above (by rw [hc]; nofun) (List.prefix_append _ _) (by simp)
      have hdir' : t'.get? (l ++ [name]) = some .directory :=
        ht'.above (by rw [hc']; nofun) (List.prefix_append _ _) (by simp)
      simp only [filesUnder, hdir, hdir', List.find?_map]
      exact congrArg _ hbelow
  · rw [find?_filesUnder_eq_none ht hdeep fun rest hp hc => hex ⟨rest, hp, hc⟩,
      find?_filesUnder_eq_none ht' hdeep' fun rest hp hc => hex ⟨rest, hp, (h _ hp).2 hc⟩]

/-- Two trees with the same files that are searched for have the same first one: below each name
there is one in both or in neither, and names come in the same order. -/
theorem find?_filesBelow_congr (ht : t.IsTree) (ht' : t'.IsTree) (hdeep : t.Deep l depth)
    (hdeep' : t'.Deep l depth') (h : SameFiles p t t' l) :
    (t.filesBelow depth l).find? p = (t'.filesBelow depth' l).find? p := by
  induction depth generalizing l p depth' with
  | zero => exact (find?_eq_none_of_deep_zero ht' hdeep hdeep' h).symm
  | succ depth ih =>
    cases depth' with
    | zero => exact find?_eq_none_of_deep_zero ht hdeep' hdeep h.symm
    | succ depth' =>
      have hunder : ∀ name, (t.filesUnder depth l name).find? p =
          (t'.filesUnder depth' l name).find? p := fun name =>
        find?_filesUnder_congr ht ht' hdeep hdeep' h
          (ih (hdeep.below name) (hdeep'.below name) (h.below name))
      rw [filesBelow_succ, filesBelow_succ, List.find?_flatMap, List.find?_flatMap]
      simp only [hunder]
      refine findSome?_congr_of_pairwise (pairwise_namesIn t l) (pairwise_namesIn t' l) ?_
      intro name found hfound
      obtain ⟨rest, rfl, c', hc'⟩ := (mem_filesUnder_iff ht' hdeep').1 (List.mem_of_find?_eq_some hfound)
      obtain ⟨c, hc⟩ := (h _ (List.find?_some hfound)).2 ⟨c', hc'⟩
      exact ⟨mem_namesIn_of_below ht (by rw [hc]; nofun), mem_namesIn_of_below ht' (by rw [hc']; nofun)⟩

theorem find?_walk_congr (ht : t.IsTree) (ht' : t'.IsTree) (h : SameFiles p t t' l) :
    (t.walk l).find? p = (t'.walk l).find? p :=
  find?_filesBelow_congr ht ht' (ht.deep_nodes l) (ht'.deep_nodes l) h

end

end FileTree

end AndroidFonts
