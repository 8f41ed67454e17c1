/-
# `AndroidFonts.Pattern.Basic` — patterns of text and how they match

A pattern is data.  `Pattern.ends p s` lists the places where a match of `p` at the front of `s`
can stop, in order of preference: a quantifier prefers more, an alternative prefers its left side.
A place is given by the text that remains.  A match takes the first of the list, so a pattern means
the same as a search that tries its choices in order and goes back on failure.

`find?` is the leftmost match in a text, `findAll` the leftmost non-overlapping ones.  A match
records the text around it, and its byte offsets are computed from that.
-/
import AndroidFonts.Text.Offset
import AndroidFonts.Unicode.Blank
import AndroidFonts.Unicode.Word

namespace AndroidFonts

open Text

/-- A set of characters. -/
inductive CharSet where
  | empty
  | single (c : Char)
  /-- All characters from `first` to `last` in code point order. -/
  | range (first last : Char)
  | blank
  | word
  | decimal
  /-- Every character but the line feed. -/
  | inLine
  | union (a b : CharSet)
  | complement (a : CharSet)
deriving Repr, DecidableEq

/-- Membership in a set of characters. -/
def CharSet.has : CharSet → Char → Bool
  | .empty, _ => false
  | .single d, c => c == d
  | .range first last, c => first ≤ c && c ≤ last
  | .blank, c => Unicode.isBlank c
  | .word, c => Unicode.isWordChar c
  | .decimal, c => Unicode.isPatternDigit c
  | .inLine, c => c != '\n'
  | .union a b, c => a.has c || b.has c
  | .complement a, c => !a.has c

/-- A pattern of text. -/
inductive Pattern where
  | empty
  | one (set : CharSet)
  /-- Any number of characters of a set. -/
  | many (set : CharSet)
  | seq (first second : Pattern)
  | alt (preferred other : Pattern)
  /-- The pattern or nothing. -/
  | opt (p : Pattern)
  /-- The pattern any number of times. -/
  | star (p : Pattern)
  /-- Nothing, before a line feed or at the end of the text. -/
  | lineEnd
  /-- Nothing, at the end of the text. -/
  | textEnd
deriving Repr, DecidableEq

namespace Pattern

/-- At least one character of a set. -/
def many1 (set : CharSet) : Pattern :=
  .seq (.one set) (.many set)

/-- Exactly this text. -/
def literal : List Char → Pattern
  | [] => .empty
  | c :: r => .seq (.one (.single c)) (literal r)

/-- The places reached by taking characters of a set from the front, nearest first. -/
def stops (set : CharSet) : List Char → List (List Char)
  | [] => [[]]
  | c :: r => (c :: r) :: if set.has c then stops set r else []

/-- The places reached by repeating a step, most steps first.  A step that takes nothing ends the
repetition, so the length of the text bounds the number of rounds. -/
def repeated (step : List Char → List (List Char)) : Nat → List Char → List (List Char)
  | 0, s => [s]
  | rounds + 1, s =>
    ((step s).filter fun r => r.length < s.length).flatMap (repeated step rounds) ++ [s]

/-- What can remain of a text after a match at its front, the preferred match first. -/
def ends : Pattern → List Char → List (List Char)
  | .empty, s => [s]
  | .one _, [] => []
  | .one set, c :: r => if set.has c then [r] else []
  | .many set, s => (stops set s).reverse
  | .seq p q, s => (ends p s).flatMap (ends q)
  | .alt p q, s => ends p s ++ ends q s
  | .opt p, s => ends p s ++ [s]
  | .star p, s => repeated (ends p) s.length s
  | .lineEnd, [] => [[]]
  | .lineEnd, c :: r => if c = '\n' then [c :: r] else []
  | .textEnd, [] => [[]]
  | .textEnd, _ :: _ => []

end Pattern

/-- A match: the text it was found in, cut into three parts. -/
structure Match where
  before : List Char
  matched : List Char
  after : List Char
deriving Repr, DecidableEq

namespace Match

/-- Byte offset of the first matched character. -/
def start (m : Match) : Nat := byteLength m.before

/-- Byte offset of the end of the match. -/
def stop (m : Match) : Nat := m.start + byteLength m.matched

/-- The same match in a text with one character more in front. -/
def shift (c : Char) (m : Match) : Match := { m with before := c :: m.before }

/-- The text a match was found in. -/
def text (m : Match) : List Char := m.before ++ m.matched ++ m.after

end Match

namespace Pattern

/-- The match at the front of a text. -/
def matchAt? (p : Pattern) (s : List Char) : Option Match :=
  (p.ends s).head?.map fun rest => ⟨[], s.take (s.length - rest.length), rest⟩

/-- The leftmost match in a text. -/
def find? (p : Pattern) (s : List Char) : Option Match :=
  match p.matchAt? s, s with
  | some m, _ => some m
  | none, [] => none
  | none, c :: r => (find? p r).map (·.shift c)

/-- The matches that begin after the first `covered` characters, from the left and without
overlap.  An empty match is not listed. -/
def findFrom (p : Pattern) : Nat → List Char → List Match
  | _, [] => []
  | covered + 1, c :: r => (findFrom p covered r).map (·.shift c)
  | 0, c :: r =>
    match p.matchAt? (c :: r) with
    | none => (findFrom p 0 r).map (·.shift c)
    | some m =>
      if m.matched = [] then (findFrom p 0 r).map (·.shift c)
      else m :: (findFrom p (m.matched.length - 1) r).map (·.shift c)

/-- The non-empty matches in a text, from the left and without overlap. -/
def findAll (p : Pattern) (s : List Char) : List Match := p.findFrom 0 s

/-- Whether a pattern matches somewhere in a text. -/
def occursIn (p : Pattern) (s : List Char) : Bool := (p.find? s).isSome

/-! ## A match cuts the text it was found in -/

theorem stops_suffix {set : CharSet} {s r : List Char} (h : r ∈ stops set s) : r <:+ s := by
  induction s with
  | nil => simp [stops] at h; simp [h]
  | cons c t ih =>
    simp only [stops, List.mem_cons] at h
    rcases h with rfl | h
    · exact List.suffix_refl _
    · split at h
      · exact (ih h).trans (List.suffix_cons c t)
      · simp at h

theorem repeated_suffix {step : List Char → List (List Char)}
    (hstep : ∀ s r, r ∈ step s → r <:+ s) {rounds : Nat} {s r : List Char}
    (h : r ∈ repeated step rounds s) : r <:+ s := by
  induction rounds generalizing s with
  | zero => simp [repeated] at h; simp [h]
  | succ rounds ih =>
    simp only [repeated, List.mem_append, List.mem_flatMap, List.mem_filter,
      List.mem_singleton] at h
    rcases h with ⟨t, ⟨ht, _⟩, hr⟩ | rfl
    · exact (ih hr).trans (hstep s t ht)
    · exact List.suffix_refl _

theorem mem_ends_one {set : CharSet} {s r : List Char} :
    r ∈ (Pattern.one set).ends s ↔ ∃ c, set.has c = true ∧ s = c :: r := by
  constructor
  · intro h
    cases s with
    | nil => exact absurd h List.not_mem_nil
    | cons c t =>
      rw [ends] at h
      split at h
      · rename_i hc
        exact ⟨c, hc, List.mem_singleton.1 h ▸ rfl⟩
      · exact absurd h List.not_mem_nil
  · rintro ⟨c, hc, rfl⟩
    rw [ends, if_pos hc]
    exact List.mem_singleton.2 rfl

theorem mem_ends_lineEnd {s r : List Char} :
    r ∈ Pattern.lineEnd.ends s ↔ r = s ∧ (s = [] ∨ ∃ t, s = '\n' :: t) := by
  cases s with
  | nil => simp [ends]
  | cons c t => by_cases hc : c = '\n' <;> simp [ends, hc]

theorem mem_ends_textEnd {s r : List Char} :
    r ∈ Pattern.textEnd.ends s ↔ r = s ∧ s = [] := by
  cases s <;> simp [ends]

/-- What remains after a match is the end of the text. -/
theorem ends_suffix {p : Pattern} {s r : List Char} (h : r ∈ p.ends s) : r <:+ s := by
  induction p generalizing s r with
  | empty => exact List.mem_singleton.1 h ▸ List.suffix_refl _
  | one set =>
    obtain ⟨c, -, rfl⟩ := mem_ends_one.1 h
    exact List.suffix_cons c r
  | many set => exact stops_suffix (List.mem_reverse.1 h)
  | seq p q ihp ihq =>
    obtain ⟨t, ht, hr⟩ := List.mem_flatMap.1 h
    exact (ihq hr).trans (ihp ht)
  | alt p q ihp ihq =>
    rcases List.mem_append.1 h with h | h
    · exact ihp h
    · exact ihq h
  | opt p ih =>
    rcases List.mem_append.1 h with h | h
    · exact ih h
    · exact List.mem_singleton.1 h ▸ List.suffix_refl _
  | star p ih => exact repeated_suffix (fun _ _ => ih) h
  | lineEnd => exact (mem_ends_lineEnd.1 h).1 ▸ List.suffix_refl _
  | textEnd => exact (mem_ends_textEnd.1 h).1 ▸ List.suffix_refl _

/-- A match at the front cuts the text there. -/
theorem text_of_matchAt? {p : Pattern} {s : List Char} {m : Match} (h : p.matchAt? s = some m) :
    m.text = s ∧ m.before = [] ∧ m.after ∈ p.ends s := by
  obtain ⟨r, hr, rfl⟩ := Option.map_eq_some_iff.1 h
  have hmem : r ∈ p.ends s := List.mem_of_mem_head? hr
  obtain ⟨t, rfl⟩ := ends_suffix hmem
  refine ⟨?_, rfl, hmem⟩
  simp [Match.text]

@[simp] theorem text_shift (c : Char) (m : Match) : (m.shift c).text = c :: m.text := rfl

/-- The parts of the leftmost match make up the text. -/
theorem text_of_find? {p : Pattern} {s : List Char} {m : Match} (h : p.find? s = some m) :
    m.text = s := by
  induction s generalizing m with
  | nil =>
    unfold find? at h
    split at h
    case h_1 m' hm => cases h; exact (text_of_matchAt? hm).1
    all_goals simp_all
  | cons c r ih =>
    unfold find? at h
    split at h
    case h_1 m' hm => cases h; exact (text_of_matchAt? hm).1
    case h_2 heq => cases heq
    case h_3 heq =>
      cases heq
      obtain ⟨m', hm', rfl⟩ := Option.map_eq_some_iff.1 h
      simp [ih hm']

/-! ## One step of the walk -/

section
variable {p : Pattern} {n : Nat} {c : Char} {s : List Char} {m : Match}

/-- A character is passed over if it is covered or nothing is taken up there. -/
theorem findFrom_cons_of_pass
    (h : n = 0 → ∀ m, p.matchAt? (c :: s) = some m → m.matched = []) :
    p.findFrom n (c :: s) = (p.findFrom (n - 1) s).map (·.shift c) := by
  cases n with
  | succ n => rfl
  | zero =>
    rw [findFrom]
    split
    · rfl
    · rename_i m hm
      rw [if_pos (h rfl m hm)]

theorem findFrom_cons_of_match (h : p.matchAt? (c :: s) = some m) (hm : m.matched ≠ []) :
    p.findFrom 0 (c :: s) = m :: (p.findFrom (m.matched.length - 1) s).map (·.shift c) := by
  rw [findFrom, h]
  simp only [if_neg hm]

/-- A character is passed over, or the match that begins with it is listed. -/
theorem findFrom_cons_cases (p : Pattern) (n : Nat) (c : Char) (s : List Char) :
    ((n = 0 → ∀ m, p.matchAt? (c :: s) = some m → m.matched = []) ∧
      p.findFrom n (c :: s) = (p.findFrom (n - 1) s).map (·.shift c)) ∨
    ∃ m, n = 0 ∧ p.matchAt? (c :: s) = some m ∧ m.matched ≠ [] ∧
      p.findFrom n (c :: s) = m :: (p.findFrom (m.matched.length - 1) s).map (·.shift c) := by
  by_cases h : n = 0 → ∀ m, p.matchAt? (c :: s) = some m → m.matched = []
  · exact .inl ⟨h, findFrom_cons_of_pass h⟩
  · simp only [Classical.not_forall] at h
    obtain ⟨rfl, m, hmatch, hm⟩ := h
    exact .inr ⟨m, rfl, hmatch, hm, findFrom_cons_of_match hmatch hm⟩

/-- A listed match is that of the front, or one of the rest that begins after what is covered. -/
theorem mem_findFrom_cons (h : m ∈ p.findFrom n (c :: s)) :
    (n = 0 ∧ p.matchAt? (c :: s) = some m ∧ m.matched ≠ []) ∨
      ∃ k m', n ≤ k + 1 ∧ m' ∈ p.findFrom k s ∧ m = m'.shift c := by
  have hrest : ∀ {k}, n ≤ k + 1 → m ∈ (p.findFrom k s).map (·.shift c) →
      ∃ k m', n ≤ k + 1 ∧ m' ∈ p.findFrom k s ∧ m = m'.shift c := by
    intro k hk hm
    obtain ⟨m', hm', rfl⟩ := List.mem_map.1 hm
    exact ⟨k, m', hk, hm', rfl⟩
  rcases findFrom_cons_cases p n c s with ⟨-, hwalk⟩ | ⟨m', rfl, hmatch, hne, hwalk⟩
  · rw [hwalk] at h
    exact .inr (hrest (by omega) h)
  · rw [hwalk] at h
    rcases List.mem_cons.1 h with rfl | h
    · exact .inl ⟨rfl, hmatch, hne⟩
    · exact .inr (hrest (Nat.zero_le _) h)

/-- The parts of every listed match make up the text. -/
theorem text_of_mem_findFrom (h : m ∈ p.findFrom n s) : m.text = s := by
  induction s generalizing n m with
  | nil => exact absurd h List.not_mem_nil
  | cons c s ih =>
    rcases mem_findFrom_cons h with ⟨-, hmatch, -⟩ | ⟨k, m', -, hm', rfl⟩
    · exact (text_of_matchAt? hmatch).1
    · rw [text_shift, ih hm']

end

end Pattern

end AndroidFonts
