/-
# `AndroidFonts.Proofs.Tree.Spelling` — a place, its path, and the names of a path

A place and its absolute path say the same: looking up the names of `l.path` one after the other
spells `l` again (`steps_path`), and the parent and the last name of `l.path` are those of `l`.  This
needs the names of `l` to be names (`Location.Named`), which a text between slashes can fail to be.

An arbitrary absolute path may hold empty pieces and dots.  Taking its last name off drops those
around that name and nothing else (`Path.Popped`), so a path is its parent, some dots, a name and
some more dots.
-/
import AndroidFonts.Tree.Resolve
import Mathlib.Data.List.DropRight

namespace AndroidFonts

/-! ## Texts cut at a separator -/

namespace Text

theorem splitOn_eq_listSplitOn (sep : Char) (s : List Char) : splitOn sep s = s.splitOn sep := by
  induction s with
  | nil => rfl
  | cons c r ih =>
    rw [List.splitOn_cons_eq_if_modifyHead]
    by_cases hc : c = sep
    · simp [splitOn, hc, ih]
    · have hne : (c == sep) = false := by simpa using hc
      cases hr : splitOn sep r with
      | nil => exact absurd hr (splitOn_ne_nil sep r)
      | cons piece pieces =>
        rw [hr] at ih
        simp [splitOn, hc, hr, hne, ← ih]

/-- Cutting at the separator undoes joining with it. -/
theorem splitOn_intercalate {sep : Char} {pieces : List (List Char)} (hne : pieces ≠ [])
    (h : ∀ piece ∈ pieces, sep ∉ piece) : splitOn sep ([sep].intercalate pieces) = pieces := by
  rw [splitOn_eq_listSplitOn]
  exact List.splitOn_intercalate sep h hne

theorem not_mem_of_mem_splitOn {sep : Char} {s piece : List Char} (h : piece ∈ splitOn sep s) :
    sep ∉ piece := by
  induction s generalizing piece with
  | nil =>
    simp only [splitOn, List.mem_singleton] at h
    simp [h]
  | cons c r ih =>
    by_cases hc : c = sep
    · simp only [splitOn, hc, if_true, List.mem_cons] at h
      rcases h with rfl | h
      · simp
      · exact ih h
    · cases hr : splitOn sep r with
      | nil => exact absurd hr (splitOn_ne_nil sep r)
      | cons first pieces =>
        simp only [splitOn, hc, if_false, hr, List.mem_cons] at h
        rcases h with rfl | h
        · have hfirst : sep ∉ first := ih (hr ▸ List.mem_cons_self)
          simp [hfirst, Ne.symm hc]
        · exact ih (hr ▸ List.mem_cons_of_mem _ h)

/-- The pieces of a text are the ones it is joined from. -/
theorem splitOn_eq_iff {sep : Char} {s : List Char} {pieces : List (List Char)}
    (hne : pieces ≠ []) : splitOn sep s = pieces ↔
      s = [sep].intercalate pieces ∧ ∀ piece ∈ pieces, sep ∉ piece := by
  constructor
  · rintro rfl
    exact ⟨(intercalate_splitOn sep s).symm, fun _ => not_mem_of_mem_splitOn⟩
  · rintro ⟨rfl, h⟩
    exact splitOn_intercalate hne h

/-- Cutting at a separator keeps all other characters. -/
theorem mem_iff_mem_splitOn {sep c : Char} (hc : c ≠ sep) (s : List Char) :
    c ∈ s ↔ ∃ piece ∈ splitOn sep s, c ∈ piece := by
  induction s with
  | nil => simp [splitOn]
  | cons d r ih =>
    by_cases hd : d = sep
    · simp [splitOn, hd, hc, ih]
    · cases hr : splitOn sep r with
      | nil => exact absurd hr (splitOn_ne_nil sep r)
      | cons piece pieces =>
        rw [hr] at ih
        simp only [List.mem_cons, exists_eq_or_imp] at ih
        simp only [splitOn, hd, if_false, hr, List.mem_cons, exists_eq_or_imp, ih, or_assoc]

end Text

/-! ## Names and steps -/

/-- Whether a text is looked up as it stands: it is not empty and has no slash. -/
def IsStep (s : String) : Prop := s ≠ "" ∧ '/' ∉ s.toList

/-- Whether a text can name an entry of a directory. -/
def IsName (s : String) : Prop := IsStep s ∧ s ≠ "." ∧ s ≠ ".."

instance (s : String) : Decidable (IsStep s) := inferInstanceAs (Decidable (_ ∧ _))

instance (s : String) : Decidable (IsName s) := inferInstanceAs (Decidable (_ ∧ _))

namespace Location

/-- A place all of whose names are names. -/
def Named (l : Location) : Prop := ∀ s ∈ l, IsName s

instance (l : Location) : Decidable l.Named := inferInstanceAs (Decidable (∀ _ ∈ l, _))

theorem named_nil : Named [] := fun _ h => absurd h List.not_mem_nil

theorem Named.above {d l : Location} (h : l.Named) (hd : d <+: l) : d.Named :=
  fun _ hs => h _ (hd.subset hs)

theorem Named.append {d l : Location} (hd : d.Named) (hl : l.Named) : Named (d ++ l) := by
  intro s hs
  rcases List.mem_append.1 hs with h | h
  · exact hd s h
  · exact hl s h

theorem Named.concat {d : Location} {name : String} (hd : d.Named) (hname : IsName name) :
    Named (d ++ [name]) :=
  hd.append fun _ hs => List.mem_singleton.1 hs ▸ hname

end Location

namespace Path

theorem isStep_of_mem_steps {p : Path} {s : String} (h : s ∈ p.steps) : IsStep s := by
  have hnames : s ∈ (p.pieces.filter (· ≠ [])).map String.ofList → IsStep s := by
    intro hs
    obtain ⟨piece, hpiece, rfl⟩ := List.mem_map.1 hs
    obtain ⟨hmem, hne⟩ := List.mem_filter.1 hpiece
    refine ⟨fun he => ?_, ?_⟩
    · have : piece = [] := by simpa using congrArg String.toList he
      simp [this] at hne
    · simpa using Text.not_mem_of_mem_splitOn hmem
  unfold steps at h
  split at h
  · rcases List.mem_append.1 h with h | h
    · exact hnames h
    · rw [List.mem_singleton.1 h]
      decide
  · exact hnames h

end Path

/-! ## The path of a place -/

namespace Location

theorem toList_path (l : Location) :
    l.path.text.toList = '/' :: ['/'].intercalate (l.map String.toList) := by
  simp [path]

theorem isAbsolute_path (l : Location) : l.path.isAbsolute = true := by
  simp [Path.isAbsolute, toList_path]

theorem path_text_ne (l : Location) : l.path.text ≠ "" := by
  intro h
  simpa [toList_path] using congrArg String.toList h

theorem Named.slash_not_mem {l : Location} (h : l.Named) :
    ∀ piece ∈ l.map String.toList, '/' ∉ piece := by
  intro piece hp
  obtain ⟨s, hs, rfl⟩ := List.mem_map.1 hp
  exact (h s hs).1.2

theorem pieces_path {l : Location} (h : l.Named) (hne : l ≠ []) :
    l.path.pieces = [] :: l.map String.toList := by
  have hmap : l.map String.toList ≠ [] := by simpa using hne
  rw [Path.pieces, toList_path]
  simp only [Text.splitOn, if_true]
  rw [Text.splitOn_intercalate hmap h.slash_not_mem]

theorem pieces_path_nil : (path []).pieces = [[], []] := by
  rw [Path.pieces, toList_path]
  rfl

/-- The last character of a text whose last piece is not empty is not the separator. -/
theorem getLast?_intercalate {pieces : List (List Char)} {last : List Char} {sep : Char}
    (hlast : pieces.getLast? = some last) (hne : last ≠ []) (hsep : sep ∉ last) :
    ([sep].intercalate pieces).getLast? ≠ some sep := by
  induction pieces with
  | nil => simp at hlast
  | cons piece rest ih =>
    cases rest with
    | nil =>
      obtain rfl : piece = last := by simpa using hlast
      intro h
      exact hsep (List.mem_of_getLast? (by simpa using h))
    | cons q ps =>
      rw [List.getLast?_cons_cons] at hlast
      have hih := ih hlast
      have hnonempty : [sep].intercalate (q :: ps) ≠ [] := by
        intro h
        cases ps with
        | nil =>
          obtain rfl : q = last := by simpa using hlast
          exact hne (by simpa using h)
        | cons r rs => simp at h
      intro h
      rw [List.intercalate_cons_cons, List.getLast?_append,
        List.getLast?_eq_some_getLast hnonempty, Option.some_or,
        ← List.getLast?_eq_some_getLast hnonempty] at h
      exact hih h

theorem getLast?_path {l : Location} (h : l.Named) (hne : l ≠ []) :
    l.path.text.toList.getLast? ≠ some '/' := by
  obtain ⟨d, name, rfl⟩ := (List.eq_nil_or_concat' l).resolve_left hne
  have hname := h name (List.mem_append_right _ (List.mem_singleton_self name))
  have hlast : ([] :: (d ++ [name]).map String.toList).getLast? = some name.toList := by
    simp [List.getLast?_cons]
  have := getLast?_intercalate hlast (fun he => hname.1.1 (by simpa using he)) hname.1.2
  rw [toList_path]
  rwa [List.intercalate_cons_of_ne_nil (by simp)] at this

/-- The names to look up for the path of a place are those of the place; the top is asked for as a
directory. -/
theorem steps_path {l : Location} (h : l.Named) :
    l.path.steps = if l = [] then ["."] else l := by
  by_cases hne : l = []
  · subst hne
    rw [Path.steps, pieces_path_nil, toList_path]
    rfl
  · have hfilter : (l.map String.toList).filter (· ≠ []) = l.map String.toList := by
      refine List.filter_eq_self.2 fun piece hp => ?_
      obtain ⟨s, hs, rfl⟩ := List.mem_map.1 hp
      simpa using (h s hs).1.1
    rw [Path.steps, pieces_path h hne, if_neg (getLast?_path h hne), if_neg hne,
      List.filter_cons_of_neg (by simp), hfilter]
    simp [List.map_map, Function.comp_def]

theorem dropWhile_isVoid_of_isName {name : String} (h : IsName name) (rest : List (List Char)) :
    (name.toList :: rest).dropWhile Path.isVoid = name.toList :: rest := by
  have hne : name.toList ≠ [] := fun he => h.1.1 (by simpa using he)
  have hdot : name.toList ≠ ['.'] := fun he => h.2.1 (String.toList_inj.1 (by simpa using he))
  exact List.dropWhile_cons_of_neg (by simp [Path.isVoid, hne, hdot])

theorem toList_path_eq_intercalate {l : Location} (hne : l ≠ []) :
    l.path.text.toList = ['/'].intercalate ([] :: l.map String.toList) := by
  rw [toList_path, List.intercalate_cons_of_ne_nil (by simpa using hne)]
  rfl

theorem fileName?_path {l : Location} {name : String} (h : Named (l ++ [name])) :
    (path (l ++ [name])).fileName? = some name := by
  have hname := h name (List.mem_append_right _ (List.mem_singleton_self name))
  have hdots : name.toList ≠ ['.', '.'] :=
    fun he => hname.2.2 (String.toList_inj.1 (by simpa using he))
  rw [Path.fileName?, pieces_path h (by simp)]
  simp only [List.map_append, List.map_cons, List.map_nil, List.reverse_cons, List.reverse_append,
    List.reverse_nil, List.nil_append, List.cons_append]
  rw [dropWhile_isVoid_of_isName hname]
  split
  · rename_i heq
    simp at heq
  · rename_i heq
    simp only [List.cons.injEq] at heq
    exact absurd heq.1 hdots
  · rename_i heq
    simp only [List.cons.injEq] at heq
    rw [← heq.1, String.ofList_toList]

theorem parent?_path {l : Location} {name : String} (h : Named (l ++ [name])) :
    (path (l ++ [name])).parent? = some l.path := by
  have hname := h name (List.mem_append_right _ (List.mem_singleton_self name))
  have hl : l.Named := h.above (List.prefix_append _ _)
  rw [Path.parent?, pieces_path h (by simp)]
  simp only [List.map_append, List.map_cons, List.map_nil, List.reverse_cons, List.reverse_append,
    List.reverse_nil, List.nil_append, List.cons_append]
  rw [dropWhile_isVoid_of_isName hname]
  simp only [isAbsolute_path, Bool.true_and]
  rcases List.eq_nil_or_concat' l with rfl | ⟨d, last, rfl⟩
  · rfl
  · have hlast := hl last (List.mem_append_right _ (List.mem_singleton_self last))
    simp only [List.map_append, List.map_cons, List.map_nil, List.reverse_append, List.reverse_cons,
      List.reverse_nil, List.nil_append, List.cons_append]
    rw [dropWhile_isVoid_of_isName hlast]
    have hkept : ['/'].intercalate
        (last.toList :: ((d.map String.toList).reverse ++ [[]])).reverse =
          (path (d ++ [last])).text.toList := by
      rw [toList_path_eq_intercalate (by simp)]
      simp
    rw [hkept, if_neg (by simpa using path_text_ne (d ++ [last])), String.ofList_toList]

theorem join_path (p : Path) (l : Location) : p.join l.path.text = l.path := by
  have h : (Path.mk l.path.text).isAbsolute = true := isAbsolute_path l
  simp [Path.join, h]

/-- Different places have different paths. -/
theorem path_injective {l m : Location} (hl : l.Named) (hm : m.Named) (h : l.path = m.path) :
    l = m := by
  have hsteps : l.path.steps = m.path.steps := by rw [h]
  rw [steps_path hl, steps_path hm] at hsteps
  by_cases hle : l = []
  · by_cases hme : m = []
    · rw [hle, hme]
    · rw [if_pos hle, if_neg hme] at hsteps
      exact absurd rfl (hm "." (hsteps ▸ List.mem_singleton_self _)).2.1
  · by_cases hme : m = []
    · rw [if_neg hle, if_pos hme] at hsteps
      exact absurd rfl (hl "." (hsteps ▸ List.mem_singleton_self _)).2.1
    · rwa [if_neg hle, if_neg hme] at hsteps

theorem isPrefix_intercalate {sep : List Char} (xs ys : List (List Char)) :
    sep.intercalate xs <+: sep.intercalate (xs ++ ys) := by
  induction xs with
  | nil => simp
  | cons x xs ih =>
    cases xs with
    | nil =>
      cases ys with
      | nil => simp
      | cons y ys => exact ⟨sep ++ sep.intercalate (y :: ys), by simp [List.intercalate_cons_cons]⟩
    | cons x' xs =>
      simp only [List.cons_append, List.intercalate_cons_cons] at ih ⊢
      exact (List.prefix_append_right_inj _).2 ih

/-- The path of a place begins with the path of every place above it. -/
theorem path_prefix_path {d l : Location} (h : d <+: l) :
    d.path.text.toList <+: l.path.text.toList := by
  obtain ⟨e, rfl⟩ := h
  rw [toList_path, toList_path, List.map_append]
  exact (List.prefix_append_right_inj ['/']).2 (isPrefix_intercalate _ _)

end Location

/-! ## Taking the last name off -/

namespace Path

/-- The texts of the pieces that are not empty. -/
def namesOf (pieces : List (List Char)) : List String :=
  (pieces.filter (· ≠ [])).map String.ofList

theorem namesOf_append (ps qs : List (List Char)) :
    namesOf (ps ++ qs) = namesOf ps ++ namesOf qs := by
  simp [namesOf]

theorem namesOf_void {ps : List (List Char)} (h : ∀ piece ∈ ps, isVoid piece = true) :
    ∃ k, namesOf ps = List.replicate k "." := by
  induction ps with
  | nil => exact ⟨0, rfl⟩
  | cons piece ps ih =>
    obtain ⟨k, hk⟩ := ih fun q hq => h q (List.mem_cons_of_mem _ hq)
    have hpiece : piece = [] ∨ piece = ['.'] := by
      simpa [isVoid] using h piece List.mem_cons_self
    rcases hpiece with rfl | rfl
    · exact ⟨k, by simpa [namesOf] using hk⟩
    · exact ⟨k + 1, by simpa [namesOf, List.replicate_succ] using hk⟩

theorem getLast?_namesOf {ps : List (List Char)} (hne : ps ≠ [])
    (hlast : isVoid (ps.getLast hne) = false) : (namesOf ps).getLast? ≠ some "." := by
  obtain ⟨init, last, rfl⟩ := (List.eq_nil_or_concat' ps).resolve_left hne
  have hl : last ≠ [] ∧ last ≠ ['.'] := by simpa [isVoid] using hlast
  rw [namesOf_append]
  intro h
  have hdot : String.ofList last = "." := by simpa [namesOf, hl.1] using h
  exact hl.2 (by simpa using congrArg String.toList hdot)

/-- `q` is `p` without its last name: between them stand dots, the name and some more dots.  The
path above the topmost names is the top. -/
structure Popped (p q : Path) (name : String) : Prop where
  isName : IsName name
  isAbsolute : q.isAbsolute = true
  isPrefix : q.text.toList <+: p.text.toList
  steps : ∃ base i j, base.getLast? ≠ some "." ∧
    p.steps = base ++ List.replicate i "." ++ name :: List.replicate j "." ∧
    (q.steps = base ∨ base = [] ∧ q.steps = ["."])

/-- The pieces of a path are those of its parent, void ones, the name and void ones again. -/
theorem pieces_of_fileName? {p : Path} {name : String} (h : p.fileName? = some name) :
    ∃ us vs, (∀ u ∈ us, isVoid u = true) ∧ (∀ v ∈ vs, isVoid v = true) ∧
      isVoid name.toList = false ∧ name ≠ ".." ∧ ∃ rest : List (List Char),
      p.pieces = rest.rdropWhile isVoid ++ us ++ name.toList :: vs ∧
      p.parent? = some ⟨String.ofList
        (if p.isAbsolute && ['/'].intercalate (rest.rdropWhile isVoid) = [] then ['/']
          else ['/'].intercalate (rest.rdropWhile isVoid))⟩ := by
  cases hd : p.pieces.reverse.dropWhile isVoid with
  | nil => simp [fileName?, hd] at h
  | cons piece rest =>
    have hpiece : isVoid piece = false := by
      have := List.head_dropWhile_not isVoid (l := p.pieces.reverse) (by simp [hd])
      simpa [hd] using this
    obtain ⟨rfl, hdots⟩ : piece = name.toList ∧ name ≠ ".." := by
      rw [fileName?, hd] at h
      split at h
      · simp at h
      · simp at h
      · rename_i hne heq
        simp only [List.cons.injEq] at heq
        obtain rfl := Option.some.inj h
        refine ⟨by simp [heq.1], fun hdots => hne ?_⟩
        simpa using congrArg String.toList hdots
    refine ⟨rest.reverse.rtakeWhile isVoid, p.pieces.rtakeWhile isVoid,
      fun u hu => List.mem_rtakeWhile_imp hu, fun v hv => List.mem_rtakeWhile_imp hv, hpiece,
      hdots, rest.reverse, ?_, ?_⟩
    · have hp : p.pieces.rdropWhile isVoid ++ p.pieces.rtakeWhile isVoid = p.pieces :=
        List.rdropWhile_append_rtakeWhile
      rw [List.rdropWhile, hd, List.reverse_cons] at hp
      rw [List.rdropWhile_append_rtakeWhile]
      simpa using hp.symm
    · simp [parent?, hd, List.rdropWhile_reverse]

theorem steps_eq (p : Path) :
    p.steps = namesOf p.pieces ++
      List.replicate (if p.text.toList.getLast? = some '/' then 1 else 0) "." := by
  unfold steps namesOf
  split <;> simp [*]

/-- A path that does not end with a slash asks for its names and no more. -/
theorem steps_eq_namesOf {p : Path} (h : p.text.toList.getLast? ≠ some '/') :
    p.steps = namesOf p.pieces := by
  rw [steps_eq, if_neg h, List.replicate_zero, List.append_nil]

theorem pieces_of_isAbsolute {p : Path} (h : p.isAbsolute = true) : ∃ ps, p.pieces = [] :: ps := by
  cases hp : p.text.toList with
  | nil => simp [isAbsolute, hp] at h
  | cons c r =>
    obtain rfl : c = '/' := by simpa [isAbsolute, hp] using h
    exact ⟨Text.splitOn '/' r, by simp [pieces, hp, Text.splitOn]⟩

/-- What stands in a path stands in one of its names, dots and slashes apart. -/
theorem mem_text_iff {p : Path} {c : Char} (hslash : c ≠ '/') (hdot : c ≠ '.') :
    c ∈ p.text.toList ↔ ∃ s ∈ p.steps, c ∈ s.toList := by
  rw [Text.mem_iff_mem_splitOn hslash, steps_eq]
  constructor
  · rintro ⟨piece, hpiece, hc⟩
    refine ⟨String.ofList piece, List.mem_append_left _ (List.mem_map_of_mem ?_), by simpa using hc⟩
    exact List.mem_filter.2 ⟨hpiece, by simpa using List.ne_nil_of_mem hc⟩
  · rintro ⟨s, hs, hc⟩
    rcases List.mem_append.1 hs with hs | hs
    · obtain ⟨piece, hpiece, rfl⟩ := List.mem_map.1 hs
      exact ⟨piece, (List.mem_filter.1 hpiece).1, by simpa using hc⟩
    · obtain rfl := (List.mem_replicate.1 hs).2
      exact absurd (List.mem_singleton.1 hc) hdot

/-- Pieces that end in a name are the pieces of the path they make. -/
theorem steps_intercalate {kept : List (List Char)} (hne : kept ≠ [])
    (hslash : ∀ k ∈ kept, '/' ∉ k) (hlast : isVoid (kept.getLast hne) = false) :
    (Path.mk (String.ofList (['/'].intercalate kept))).steps = namesOf kept := by
  have hend := Location.getLast?_intercalate (List.getLast?_eq_some_getLast hne)
    (fun he => by simp [isVoid, he] at hlast) (hslash _ (List.getLast_mem hne))
  simp only [steps_eq, pieces, String.toList_ofList]
  rw [Text.splitOn_intercalate hne hslash, if_neg hend, List.replicate_zero, List.append_nil]

theorem popped {p q : Path} {name : String} (hp : p.isAbsolute = true)
    (hname : p.fileName? = some name) (hq : p.parent? = some q) : Popped p q name := by
  obtain ⟨us, vs, hus, hvs, hvoid, hdots, rest, hpieces, hparent⟩ := pieces_of_fileName? hname
  obtain ⟨ps, hps⟩ := pieces_of_isAbsolute hp
  obtain ⟨i, hi⟩ := namesOf_void hus
  obtain ⟨j, hj⟩ := namesOf_void hvs
  have hslash : ∀ k ∈ p.pieces, '/' ∉ k := fun _ hk => Text.not_mem_of_mem_splitOn hk
  have hne : name ≠ "" := by
    rintro rfl
    simp [isVoid] at hvoid
  have hdot : name ≠ "." := by
    rintro rfl
    simp [isVoid] at hvoid
  have hisName : IsName name := ⟨⟨hne, hslash _ (by simp [hpieces])⟩, hdot, hdots⟩
  obtain ⟨j', hsteps⟩ : ∃ j', p.steps = namesOf (rest.rdropWhile isVoid) ++ List.replicate i "." ++
      name :: List.replicate j' "." := by
    refine ⟨j + if p.text.toList.getLast? = some '/' then 1 else 0, ?_⟩
    rw [steps_eq, hpieces, namesOf_append, namesOf_append, hi, List.replicate_add, ← hj]
    simp [namesOf, hne]
  have htext : p.text.toList = ['/'].intercalate p.pieces :=
    (Text.intercalate_splitOn '/' p.text.toList).symm
  rw [hq, hp, Bool.true_and] at hparent
  have hlast := List.rdropWhile_last_not isVoid rest
  generalize rest.rdropWhile isVoid = kept at *
  cases kept with
  | nil =>
    obtain rfl : q = ⟨String.ofList ['/']⟩ := by simpa using hparent
    refine ⟨hisName, rfl, ?_, [], i, j', by simp, hsteps, Or.inr ⟨rfl, by decide +kernel⟩⟩
    cases hc : p.text.toList with
    | nil => simp [isAbsolute, hc] at hp
    | cons c r =>
      obtain rfl : c = '/' := by simpa [isAbsolute, hc] using hp
      simp
  | cons k ks =>
    obtain ⟨rfl, -⟩ : k = [] ∧ _ := by simpa [hps] using hpieces.symm
    have hnot := hlast (List.cons_ne_nil _ _)
    have hks : ks ≠ [] := by
      rintro rfl
      exact hnot rfl
    have hkept : ['/'].intercalate ([] :: ks) = '/' :: ['/'].intercalate ks :=
      List.intercalate_cons_of_ne_nil hks
    obtain rfl : q = ⟨String.ofList (['/'].intercalate ([] :: ks))⟩ := by
      simpa [hkept] using hparent
    refine ⟨hisName, by simp [isAbsolute, hkept], ?_, _, i, j', ?_, hsteps, Or.inl ?_⟩
    · rw [htext, hpieces, String.toList_ofList, List.append_assoc]
      exact Location.isPrefix_intercalate _ _
    · exact getLast?_namesOf (List.cons_ne_nil _ _) (by simpa using hnot)
    · exact steps_intercalate (List.cons_ne_nil _ _)
        (fun k hk => hslash k (by
          rw [hpieces, List.append_assoc]
          exact List.mem_append_left _ hk)) (by simpa using hnot)

/-- A text that another begins with starts at the top if that one does. -/
theorem isAbsolute_of_isPrefix {p q : Path} (h : q.text.toList <+: p.text.toList)
    (hne : q.text.toList ≠ []) : q.isAbsolute = p.isAbsolute := by
  obtain ⟨rest, hrest⟩ := h
  rw [isAbsolute, isAbsolute, ← hrest, List.head?_append_of_ne_nil _ hne]

/-- A path without `..` that has a parent ends in a name. -/
theorem fileName?_of_parent? {p q : Path} (hq : p.parent? = some q)
    (hdots : ".." ∉ namesOf p.pieces) : ∃ name, p.fileName? = some name := by
  rw [parent?] at hq
  rw [fileName?]
  split
  · rename_i hnil
    rw [hnil] at hq
    nomatch hq
  · rename_i rest hcons
    have hmem : ['.', '.'] ∈ p.pieces :=
      List.mem_reverse.1 ((List.dropWhile_sublist isVoid).subset (hcons ▸ List.mem_cons_self))
    exact absurd (List.mem_map_of_mem (List.mem_filter.2 ⟨hmem, rfl⟩)) hdots
  · exact ⟨_, rfl⟩

/-- A path without `..` has the names of its parent and more, and these are not all dots. -/
theorem names_of_parent? {p q : Path} (hq : p.parent? = some q)
    (hdots : ".." ∉ namesOf p.pieces) : q.isAbsolute = p.isAbsolute ∧
      ∃ rest, namesOf p.pieces = namesOf q.pieces ++ rest ∧ ∃ s ∈ rest, s ≠ "." := by
  obtain ⟨name, hname⟩ := fileName?_of_parent? hq hdots
  obtain ⟨us, vs, -, -, hvoid, -, rest, hpieces, hparent⟩ := pieces_of_fileName? hname
  have hlast := List.rdropWhile_last_not isVoid rest
  rw [hq] at hparent
  generalize rest.rdropWhile isVoid = kept at *
  have hkept : namesOf q.pieces = namesOf kept ∧ q.isAbsolute = p.isAbsolute := by
    cases kept with
    | nil =>
      cases habsolute : p.isAbsolute with
      | true =>
        obtain rfl : q = ⟨String.ofList ['/']⟩ := by simpa [habsolute] using hparent
        exact ⟨rfl, rfl⟩
      | false =>
        obtain rfl : q = ⟨String.ofList []⟩ := by simpa [habsolute] using hparent
        exact ⟨rfl, rfl⟩
    | cons k ks =>
      have hslash : ∀ piece ∈ k :: ks, '/' ∉ piece := fun piece hpiece =>
        Text.not_mem_of_mem_splitOn (show piece ∈ p.pieces by
          rw [hpieces, List.append_assoc]
          exact List.mem_append_left _ hpiece)
      have hsplit := Text.splitOn_intercalate (List.cons_ne_nil k ks) hslash
      have hne : ['/'].intercalate (k :: ks) ≠ [] := by
        intro hnil
        rw [hnil] at hsplit
        obtain ⟨rfl, rfl⟩ := List.cons.inj hsplit
        exact hlast (List.cons_ne_nil _ _) rfl
      obtain rfl : q = ⟨String.ofList (['/'].intercalate (k :: ks))⟩ := by
        simpa [hne] using hparent
      refine ⟨by rw [pieces, String.toList_ofList, hsplit], isAbsolute_of_isPrefix ?_ (by simpa)⟩
      rw [← Text.intercalate_splitOn '/' p.text.toList, ← pieces, hpieces, String.toList_ofList,
        List.append_assoc]
      exact Location.isPrefix_intercalate _ _
  have hpiece : name.toList ≠ [] ∧ name.toList ≠ ['.'] := by simpa [isVoid] using hvoid
  refine ⟨hkept.2, namesOf us ++ name :: namesOf vs, ?_, name, by simp, ?_⟩
  · rw [hpieces, namesOf_append, namesOf_append, hkept.1]
    simp [namesOf, hpiece.1]
  · rintro rfl
    exact hpiece.2 rfl

end Path

end AndroidFonts
