/-
# `AndroidFonts.Pattern.Syntax` — patterns as text

`Notation.read?` reads the usual notation of patterns and refuses a text that is not in it: an open
group, set or count, a repetition of nothing, counts in the wrong order, a name that is given twice
or that there is nothing for.  `Pattern.compile?` goes on to the pattern to search with.

The reader keeps the groups that are open and takes one item at a time, so what it has read does not
depend on what follows.  In particular a name that is written with `Pattern.escape` in the middle of
a template is read as its own characters, whatever they are (`readFrom_escape`).
-/
import AndroidFonts.Pattern.Brackets

namespace AndroidFonts

/-- A group under construction. -/
structure PatternGroup where
  /-- Finished alternatives, the latest first. -/
  alternatives : List Notation
  /-- The items of the alternative being read, the latest first. -/
  items : List Notation
  /-- The flags in force. -/
  flags : PatternFlags
deriving Repr

namespace PatternGroup

/-- A group that has just been opened. -/
def fresh (flags : PatternFlags) : PatternGroup := ⟨[], [], flags⟩

def push (g : PatternGroup) (p : Notation) : PatternGroup := { g with items := p :: g.items }

/-- Ends the alternative being read. -/
def split (g : PatternGroup) : PatternGroup :=
  { g with alternatives := .ofItems g.items.reverse :: g.alternatives, items := [] }

/-- All that stands in the group. -/
def close (g : PatternGroup) : Notation := .ofAlternatives g.split.alternatives.reverse

/-- Repeats the latest item; none if there is nothing to repeat. -/
def repeatLast (g : PatternGroup) (low : Nat) (high : Option Nat) (greedy : Bool) :
    Option PatternGroup :=
  match g.items with
  | [] => none
  | .flags :: _ => none
  | p :: items => some { g with items := .repeated p low high greedy :: items }

end PatternGroup

/-- A pattern under construction. -/
structure PatternReader where
  current : PatternGroup
  /-- The groups around the current one, the innermost first. -/
  outer : List PatternGroup
  /-- The names of groups so far. -/
  names : List String
deriving Repr

namespace PatternReader

open Notation

def fresh : PatternReader := ⟨.fresh .initial, [], []⟩

def flags (r : PatternReader) : PatternFlags := r.current.flags

def push (r : PatternReader) (p : Notation) : PatternReader :=
  { r with current := r.current.push p }

def pushSet (r : PatternReader) (s : SetNotation) : PatternReader :=
  r.push (.chars r.flags.ignoreCase s)

def pushChar (r : PatternReader) (c : Char) : PatternReader := r.pushSet (plainItem c)

def pushBoundary (r : PatternReader) (b : Boundary) : PatternReader :=
  r.push (.boundary r.flags b)

/-! ## Single characters -/

/-- The set of a dot.  Without the flag `u` there is none. -/
def dot? (f : PatternFlags) : Option CharSet :=
  if !f.unicode then none
  else if f.anyCharacter then some (.complement .empty)
  else if f.carriageReturn then some (.less .inLine (.single '\r'))
  else some .inLine

def pushEscaped (r : PatternReader) : Escaped → Option PatternReader
  | .char c => some (r.pushChar c)
  | .byte c => if admits r.flags c then some (r.pushChar c) else none
  | .set s => some (r.pushSet s)
  | .boundary b => some (r.pushBoundary b)

/-! ## Repetitions -/

/-- What the numbers of a count are less than. -/
def countLimit : Nat := 0x100000000

/-- Reads a number with white space around it. -/
def readNumber (f : PatternFlags) (s : List Char) : Option (Nat × List Char) :=
  let (digits, rest) := takeKind f Char.isDigit false (s.dropWhile Unicode.isBlank)
  let n := Text.digitsValue digits
  if digits = [] || countLimit ≤ n then none else some (n, rest.dropWhile Unicode.isBlank)

/-- Reads a count, from behind its opening brace: the least number of times and the greatest. -/
def readCount (f : PatternFlags) (s : List Char) : Option (Nat × Option Nat × List Char) := do
  let (low, s) ← readNumber f (skip f s)
  match s with
  | '}' :: rest => return (low, some low, rest)
  | ',' :: r =>
    match skip f r with
    | '}' :: rest => return (low, none, rest)
    | r =>
      let (high, r) ← readNumber f r
      let '}' :: rest := r | none
      if low ≤ high then return (low, some high, rest) else none
  | _ => none

/-- Repeats the latest item.  A question mark right behind turns the preference round. -/
def quantify (r : PatternReader) (low : Nat) (high : Option Nat) (s : List Char) :
    Option (PatternReader × List Char) :=
  let (marked, rest) := match s with
    | '?' :: rest => (true, rest)
    | rest => (false, rest)
  (r.current.repeatLast low high (marked == r.flags.swapGreed)).map fun g =>
    ({ r with current := g }, rest)

/-! ## Groups -/

/-- Opens a group inside the current one. -/
def openGroup (r : PatternReader) (flags : PatternFlags) : PatternReader :=
  { r with current := .fresh flags, outer := r.current :: r.outer }

/-- Closes the current group; none if it is the whole pattern. -/
def closeGroup (r : PatternReader) : Option PatternReader :=
  match r.outer with
  | [] => none
  | g :: outer => some { r with current := g.push (.group r.current.close), outer := outer }

/-- Whether a text may be the name of a group. -/
def isGroupName : List Char → Bool
  | [] => false
  | c :: r =>
    (c = '_' || Unicode.isAlphabetic c) &&
      r.all fun c => Unicode.isAlphanumeric c || c ∈ ['_', '.', '[', ']']

/-- Reads the name of a group through its closing angle bracket.  No name is given twice. -/
def readGroupName (r : PatternReader) (s : List Char) : Option (PatternReader × List Char) :=
  let name := s.takeWhile (· ≠ '>')
  match s.dropWhile (· ≠ '>') with
  | [] => none
  | _ :: rest =>
    if isGroupName name && String.ofList name ∉ r.names then
      some ({ r with names := String.ofList name :: r.names }.openGroup r.flags, rest)
    else none

/-- Flags while they are read. -/
structure FlagReader where
  flags : PatternFlags
  /-- The flags that have been named. -/
  seen : List PatternFlag
  /-- Whether a hyphen has been read, behind which flags are cleared. -/
  clearing : Bool
  /-- Whether the hyphen is what has been read last. -/
  dangling : Bool

/-- Reads flags up to the parenthesis or colon behind them, which is given with the rest. -/
def readFlags (f : FlagReader) : List Char → Option (FlagReader × Char × List Char)
  | [] => none
  | c :: r =>
    if c = ')' || c = ':' then if f.dangling then none else some (f, c, r)
    else if c = '-' then
      if f.clearing then none else readFlags { f with clearing := true, dangling := true } r
    else
      match PatternFlag.ofLetter? c with
      | none => none
      | some flag =>
        if flag ∈ f.seen then none
        else
          readFlags ⟨f.flags.set flag !f.clearing, flag :: f.seen, f.clearing, false⟩ r

/-- Reads what follows a question mark at the head of a group: flags for the rest of the current
group, or for a group of their own. -/
def readFlagGroup (r : PatternReader) (s : List Char) : Option (PatternReader × List Char) := do
  let (f, c, rest) ← readFlags ⟨r.flags, [], false, false⟩ s
  if c = ':' then return (r.openGroup f.flags, rest)
  if f.seen = [] then none
  return ({ r with current := { r.current.push .flags with flags := f.flags } }, rest)

/-- Reads the head of a group, from behind its opening parenthesis.  A pattern cannot ask for what
stands before or behind it. -/
def readGroupHead (r : PatternReader) (s : List Char) : Option (PatternReader × List Char) :=
  match skip r.flags s with
  | '?' :: '=' :: _ => none
  | '?' :: '!' :: _ => none
  | '?' :: '<' :: '=' :: _ => none
  | '?' :: '<' :: '!' :: _ => none
  | '?' :: 'P' :: '<' :: rest => r.readGroupName rest
  | '?' :: '<' :: rest => r.readGroupName rest
  | '?' :: rest => r.readFlagGroup rest
  | rest => some (r.openGroup r.flags, rest)

/-! ## The whole -/

/-- Reads the item that begins with a character; the result has the text behind it. -/
def readItemAt (r : PatternReader) (c : Char) (s : List Char) :
    Option (PatternReader × List Char) :=
  match c with
  | '\\' => do
    let (e, rest) ← readEscape r.flags s
    return (← r.pushEscaped e, rest)
  | '(' => r.readGroupHead s
  | ')' => r.closeGroup.map (·, s)
  | '|' => some ({ r with current := r.current.split }, s)
  | '[' => (readSet r.flags (2 * s.length + 2) s).map fun (set, rest) => (r.pushSet set, rest)
  | '*' => r.quantify 0 none s
  | '+' => r.quantify 1 none s
  | '?' => r.quantify 0 (some 1) s
  | '{' => do
    let (low, high, rest) ← readCount r.flags s
    r.quantify low high (skip r.flags rest)
  | '.' => (dot? r.flags).map fun set => (r.pushSet (.known set), s)
  | '^' => some (r.pushBoundary .lineStart, s)
  | '$' => some (r.pushBoundary .lineEnd, s)
  | c => some (r.pushChar c, s)

/-- Reads a text of at most so many items. -/
def readFrom : Nat → PatternReader → List Char → Option PatternReader
  | 0, r, s => if skip r.flags s = [] then some r else none
  | n + 1, r, s =>
    match skip r.flags s with
    | [] => some r
    | c :: s => (r.readItemAt c s).bind fun (r, rest) => readFrom n r rest

/-- The pattern, if all groups are closed and its parts do not lie too deep in each other. -/
def finish (r : PatternReader) : Option Notation :=
  if r.outer.isEmpty && r.current.close.depth ≤ maxDepth then some r.current.close else none

end PatternReader

/-- The pattern that a text writes down; none if the text is not in the notation. -/
def Notation.read? (s : List Char) : Option Notation :=
  (PatternReader.fresh.readFrom s.length s).bind PatternReader.finish

/-- The pattern to search with that a text writes down. -/
def Pattern.compile? (s : List Char) : Option Pattern :=
  (Notation.read? s).bind Notation.pattern?

/-! ## Reading an escaped text -/

namespace PatternReader

open Notation

@[simp] theorem flags_pushChar (r : PatternReader) (c : Char) : (r.pushChar c).flags = r.flags :=
  rfl

/-- More items than needed do no harm. -/
theorem readFrom_succ {n : Nat} {r r' : PatternReader} {s : List Char}
    (h : readFrom n r s = some r') : readFrom (n + 1) r s = some r' := by
  induction n generalizing r s with
  | zero =>
    unfold readFrom at h ⊢
    split at h
    case isTrue hs => simpa [hs] using h
    case isFalse => simp at h
  | succ n ih =>
    rw [readFrom] at h ⊢
    cases hs : skip r.flags s with
    | nil => simpa [hs] using h
    | cons c t =>
      rw [hs] at h
      obtain ⟨⟨r₁, rest⟩, h₁, h₂⟩ := Option.bind_eq_some_iff.1 h
      exact Option.bind_eq_some_iff.2 ⟨⟨r₁, rest⟩, h₁, ih h₂⟩

theorem readFrom_mono {n m : Nat} (hnm : n ≤ m) {r r' : PatternReader} {s : List Char}
    (h : readFrom n r s = some r') : readFrom m r s = some r' := by
  induction hnm with
  | refl => exact h
  | step _ ih => exact readFrom_succ ih

/-- A character with no meaning of its own is an item. -/
theorem readItemAt_of_not_isMeta (r : PatternReader) {c : Char} (h : ¬Pattern.isMeta c)
    (s : List Char) : r.readItemAt c s = some (r.pushChar c, s) := by
  have hne : ∀ d, Pattern.isMeta d = true → c ≠ d := fun d hd hcd => h (hcd ▸ hd)
  have h1 := hne '\\' rfl
  have h2 := hne '(' rfl
  have h3 := hne ')' rfl
  have h4 := hne '|' rfl
  have h5 := hne '[' rfl
  have h6 := hne '*' rfl
  have h7 := hne '+' rfl
  have h8 := hne '?' rfl
  have h9 := hne '{' rfl
  have h10 := hne '.' rfl
  have h11 := hne '^' rfl
  have h12 := hne '$' rfl
  unfold readItemAt
  split <;> first | contradiction | rfl

/-- An escaped text is read as its characters, one item each. -/
theorem readFrom_escape (n : Nat) (r : PatternReader) (h : r.flags.verbose = false)
    (s t : List Char) :
    readFrom (n + s.length) r (Pattern.escape s ++ t) = readFrom n (s.foldl pushChar r) t := by
  induction s generalizing r with
  | nil => rfl
  | cons c s ih =>
    have hskip : ∀ u, skip r.flags u = u := fun u => by simp [skip, h]
    by_cases hc : Pattern.isMeta c
    · have hitem : r.readItemAt '\\' (c :: (Pattern.escape s ++ t)) =
          some (r.pushChar c, Pattern.escape s ++ t) := by
        simp [readItemAt, readEscape_of_isMeta r.flags hc, pushEscaped]
      rw [show Pattern.escape (c :: s) ++ t = '\\' :: c :: (Pattern.escape s ++ t) by
          simp [Pattern.escape, hc],
        show n + (c :: s).length = (n + s.length) + 1 by simp [Nat.add_assoc], readFrom, hskip]
      simp only [hitem, Option.bind_some]
      exact ih (r.pushChar c) h
    · rw [show Pattern.escape (c :: s) ++ t = c :: (Pattern.escape s ++ t) by
          simp [Pattern.escape, hc],
        show n + (c :: s).length = (n + s.length) + 1 by simp [Nat.add_assoc], readFrom, hskip]
      simp only [readItemAt_of_not_isMeta r hc, Option.bind_some]
      exact ih (r.pushChar c) h

end PatternReader

end AndroidFonts
