/-
# `AndroidFonts.Proofs.Pattern.Caching` — a cache of patterns cannot be told from compiling

Whatever a cache has been asked before, it answers as if every text were compiled anew, and it stays
within its capacity (`serveAll_transparent`).  What carries this is one invariant: the texts that are kept
are distinct, each with the pattern that it is read as (`Sound`).  `compile_cases` says everything that one
request can do to a cache.

A full cache is emptied before a text is read.  So a text that is no pattern may cost all entries, but it
never adds one.
-/
import AndroidFonts.Pattern.Cache

namespace AndroidFonts

namespace PatternCache

variable {cache : PatternCache} {text key : String} {p : Notation} {e : String × Notation}

/-! ## Requests -/

/-- What a cache is asked for. -/
inductive Request where
  | compile (text : String)
  | clear
deriving Repr, DecidableEq

/-- The answer to a request where nothing is cached; there is none if all is to be forgotten. -/
def Request.answer : Request → Option (Option Notation)
  | .compile text => some (Notation.read? text.toList)
  | .clear => none

/-- The answer of a cache to a request, and the cache after it. -/
def serve (cache : PatternCache) : Request → Option (Option Notation) × PatternCache
  | .compile text => (some (cache.compile text).1, (cache.compile text).2)
  | .clear => (none, empty)

/-- The answers to requests one after the other, and the cache after them. -/
def serveAll (cache : PatternCache) : List Request → List (Option (Option Notation)) × PatternCache
  | [] => ([], cache)
  | request :: requests =>
    ((cache.serve request).1 :: ((cache.serve request).2.serveAll requests).1,
      ((cache.serve request).2.serveAll requests).2)

theorem snd_serveAll_concat (cache : PatternCache) (requests : List Request) (request : Request) :
    (cache.serveAll (requests ++ [request])).2 =
      ((cache.serveAll requests).2.serve request).2 := by
  induction requests generalizing cache with
  | nil => rfl
  | cons first requests ih => exact ih (cache.serve first).2

/-! ## One request -/

/-- What is kept of a cache when an unknown text is to be read. -/
def room (cache : PatternCache) : PatternCache := if capacity ≤ cache.size then empty else cache

/-- A text is known, or it is read, and kept if it is a pattern. -/
theorem compile_cases (cache : PatternCache) (text : String) :
    (∃ p, cache.get? text = some p ∧ cache.compile text = (some p, cache)) ∨
    cache.get? text = none ∧
      ((∃ p, Notation.read? text.toList = some p ∧
        cache.compile text = (some p, ⟨(text, p) :: cache.room.entries⟩)) ∨
      Notation.read? text.toList = none ∧ cache.compile text = (none, cache.room)) := by
  unfold compile
  cases hget : cache.get? text with
  | some p => exact .inl ⟨p, rfl, rfl⟩
  | none =>
    refine .inr ⟨rfl, ?_⟩
    cases hread : Notation.read? text.toList with
    | some p => exact .inl ⟨p, rfl, rfl⟩
    | none => exact .inr ⟨rfl, rfl⟩

theorem room_cases (cache : PatternCache) :
    capacity ≤ cache.size ∧ cache.room = empty ∨ cache.size < capacity ∧ cache.room = cache := by
  unfold room
  split
  · exact .inl ⟨‹_›, rfl⟩
  · exact .inr ⟨Nat.lt_of_not_le ‹_›, rfl⟩

/-! ## What every request keeps -/

/-- Whether a cache is within its capacity and keeps distinct texts, each with the pattern that it is
read as. -/
structure Sound (cache : PatternCache) : Prop where
  size_le : cache.size ≤ capacity
  nodup : (cache.entries.map Prod.fst).Nodup
  read : ∀ e ∈ cache.entries, Notation.read? e.1.toList = some e.2

theorem mem_of_get? (h : cache.get? text = some p) : (text, p) ∈ cache.entries := by
  obtain ⟨_, _, hsplit, -⟩ := List.lookup_eq_some_iff.1 h
  exact hsplit ▸ by simp

theorem not_mem_of_get? (h : cache.get? text = none) : text ∉ cache.entries.map Prod.fst := by
  intro hmem
  obtain ⟨e, he, rfl⟩ := List.mem_map.1 hmem
  have := List.lookup_eq_none_iff.1 h e he
  simp at this

theorem sound_empty : empty.Sound :=
  ⟨Nat.zero_le _, List.nodup_nil, fun _ he => absurd he List.not_mem_nil⟩

theorem Sound.room (h : cache.Sound) : cache.room.Sound := by
  rcases cache.room_cases with ⟨-, hroom⟩ | ⟨-, hroom⟩
  · rw [hroom]
    exact sound_empty
  · rw [hroom]
    exact h

theorem size_room_lt (cache : PatternCache) : cache.room.size < capacity := by
  rcases cache.room_cases with ⟨-, hroom⟩ | ⟨hsize, hroom⟩
  · rw [hroom]
    decide
  · rw [hroom]
    exact hsize

theorem room_subset (cache : PatternCache) : cache.room.entries ⊆ cache.entries := by
  rcases cache.room_cases with ⟨-, hroom⟩ | ⟨-, hroom⟩
  · rw [hroom]
    exact List.nil_subset _
  · rw [hroom]
    exact List.Subset.refl _

/-- A pattern is put in front where there is room for it. -/
theorem Sound.cons (h : cache.Sound) (hsize : cache.size < capacity)
    (hnew : text ∉ cache.entries.map Prod.fst) (hread : Notation.read? text.toList = some p) :
    Sound ⟨(text, p) :: cache.entries⟩ where
  size_le := hsize
  nodup := List.nodup_cons.2 ⟨hnew, h.nodup⟩
  read := by
    intro e he
    rcases List.mem_cons.1 he with rfl | he
    · exact hread
    · exact h.read e he

theorem Sound.compile (h : cache.Sound) (text : String) : (cache.compile text).2.Sound := by
  rcases cache.compile_cases text with ⟨p, -, hcompile⟩ | ⟨hget, ⟨p, hread, hcompile⟩ | ⟨-, hcompile⟩⟩
  · rw [hcompile]
    exact h
  · rw [hcompile]
    have hnew : text ∉ cache.room.entries.map Prod.fst := fun hmem =>
      not_mem_of_get? hget (List.map_subset _ cache.room_subset hmem)
    exact h.room.cons cache.size_room_lt hnew hread
  · rw [hcompile]
    exact h.room

theorem Sound.serve (h : cache.Sound) (request : Request) : (cache.serve request).2.Sound := by
  cases request with
  | compile text => exact h.compile text
  | clear => exact sound_empty

/-- A sound cache answers as if the text were read anew. -/
theorem Sound.fst_compile (h : cache.Sound) (text : String) :
    (cache.compile text).1 = Notation.read? text.toList := by
  rcases cache.compile_cases text with
    ⟨p, hget, hcompile⟩ | ⟨-, ⟨p, hread, hcompile⟩ | ⟨hread, hcompile⟩⟩
  · rw [hcompile]
    exact (h.read _ (mem_of_get? hget)).symm
  · rw [hcompile, hread]
  · rw [hcompile, hread]

theorem Sound.fst_serve (h : cache.Sound) (request : Request) :
    (cache.serve request).1 = request.answer := by
  cases request with
  | compile text => exact congrArg some (h.fst_compile text)
  | clear => rfl

/-! ## Histories -/

theorem Sound.serveAll (h : cache.Sound) (requests : List Request) :
    (cache.serveAll requests).1 = requests.map Request.answer ∧
      (cache.serveAll requests).2.Sound := by
  induction requests generalizing cache with
  | nil => exact ⟨rfl, h⟩
  | cons request requests ih =>
    obtain ⟨hanswers, hsound⟩ := ih (h.serve request)
    refine ⟨?_, hsound⟩
    rw [PatternCache.serveAll, h.fst_serve, hanswers, List.map_cons]

/-- Whether a request may take entries from a cache: all is to be forgotten, or the cache is full and
does not know the text. -/
def Empties (cache : PatternCache) : Request → Prop
  | .clear => True
  | .compile text => cache.get? text = none ∧ cache.size = capacity

/-- A request adds at most the text that it asks for, if that is a pattern. -/
theorem mem_of_mem_serve {request : Request} (he : e ∈ (cache.serve request).2.entries) :
    e ∈ cache.entries ∨ request = .compile e.1 ∧ request.answer = some (some e.2) := by
  cases request with
  | clear => nomatch he
  | compile text =>
    rcases cache.compile_cases text with
      ⟨p, -, hcompile⟩ | ⟨-, ⟨p, hread, hcompile⟩ | ⟨-, hcompile⟩⟩
    · rw [serve, hcompile] at he
      exact .inl he
    · rw [serve, hcompile] at he
      rcases List.mem_cons.1 he with rfl | he
      · exact .inr ⟨rfl, congrArg some hread⟩
      · exact .inl (cache.room_subset he)
    · rw [serve, hcompile] at he
      exact .inl (cache.room_subset he)

/-- A request that does not empty a cache keeps all its entries. -/
theorem mem_serve_of_mem (h : cache.Sound) {request : Request} (he : e ∈ cache.entries)
    (hkeeps : ¬ cache.Empties request) : e ∈ (cache.serve request).2.entries := by
  cases request with
  | clear => exact absurd trivial hkeeps
  | compile text =>
    rcases cache.compile_cases text with ⟨p, -, hcompile⟩ | ⟨hget, hcases⟩
    · rw [serve, hcompile]
      exact he
    · have hroom : cache.room = cache := by
        rcases cache.room_cases with ⟨hfull, -⟩ | ⟨-, hroom⟩
        · exact absurd ⟨hget, Nat.le_antisymm h.size_le hfull⟩ hkeeps
        · exact hroom
      rcases hcases with ⟨p, -, hcompile⟩ | ⟨-, hcompile⟩
      · rw [serve, hcompile, hroom]
        exact List.mem_cons_of_mem _ he
      · rw [serve, hcompile, hroom]
        exact he

theorem get?_serve (h : cache.Sound) (hread : Notation.read? text.toList = some p) :
    (cache.serve (.compile text)).2.get? text = some p := by
  rcases cache.compile_cases text with
    ⟨p', hget, hcompile⟩ | ⟨-, ⟨p', hread', hcompile⟩ | ⟨hread', -⟩⟩
  · rw [serve, hcompile, ← hread, h.read _ (mem_of_get? hget)]
    exact hget
  · obtain rfl := Option.some.inj (hread.symm.trans hread')
    rw [serve, hcompile]
    exact List.lookup_cons_self
  · nomatch hread.symm.trans hread'

/-- After any history a cache has answered as if there were none; it is within its capacity and holds
distinct texts with their own patterns; and the next request adds no other text than the one that is
asked for, adds it if and only if it is a pattern, and takes entries only if it empties the cache. -/
theorem serveAll_transparent (requests : List Request) (request : Request) :
    let cache := (empty.serveAll requests).2
    let next := (empty.serveAll (requests ++ [request])).2
    (empty.serveAll requests).1 = requests.map Request.answer ∧ cache.Sound ∧
      (∀ text p, request = .compile text → request.answer = some (some p) →
        next.get? text = some p) ∧
      (∀ e ∈ next.entries, e ∉ cache.entries →
        request = .compile e.1 ∧ request.answer = some (some e.2)) ∧
      ∀ e ∈ cache.entries, e ∉ next.entries → cache.Empties request := by
  intro cache next
  obtain ⟨hanswers, hsound⟩ := sound_empty.serveAll requests
  have hnext : next = (cache.serve request).2 := snd_serveAll_concat empty requests request
  rw [hnext]
  refine ⟨hanswers, hsound, ?_, ?_, ?_⟩
  · rintro text p rfl hanswer
    exact get?_serve hsound (Option.some.inj hanswer)
  · exact fun e he hnew => (mem_of_mem_serve he).resolve_left hnew
  · exact fun e he hgone => Classical.byContradiction fun hkeeps =>
      hgone (mem_serve_of_mem hsound he hkeeps)

end PatternCache

end AndroidFonts
