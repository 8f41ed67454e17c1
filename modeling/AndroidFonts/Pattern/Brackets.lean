/-
# `AndroidFonts.Pattern.Brackets` — sets of characters in brackets

Between brackets stand characters, ranges, escapes, ASCII sets such as `[:alpha:]`, and further
brackets.  A caret in front takes the complement.  The operators `&&`, `--` and `~~` have all that
stands before them on their left side, up to the bracket.

Some characters are plain where they cannot mean anything else: hyphens in front or just before the
closing bracket, and a closing bracket in front.  A name between colons that there is no set for is
read as brackets of its own.
-/
import AndroidFonts.Pattern.Escape

namespace AndroidFonts

namespace Notation

/-- A plain character as an item. -/
def plainItem (c : Char) : SetNotation := .known (.single c)

/-- An escape as an item. -/
def Escaped.item? (f : PatternFlags) : Escaped → Option SetNotation
  | .char c => if admits f c then some (plainItem c) else none
  | .byte c => if admits f c then some (plainItem c) else none
  | .set s => some s
  | .boundary _ => none

/-- An escape as an end of a range. -/
def Escaped.rangeEnd? (f : PatternFlags) : Escaped → Option Char
  | .char c => if admits f c then some c else none
  | .byte c => if admits f c then some c else none
  | .set _ => none
  | .boundary _ => none

/-- Reads a character or an escape. -/
def readMember (f : PatternFlags) (c : Char) (r : List Char) : Option (Escaped × List Char) :=
  if c = '\\' then readEscape f r else some (.char c, r)

/-- The character that decides what a hyphen is, from behind it: white space is passed over, and one
number sign with it. -/
def deciding? (f : PatternFlags) (s : List Char) : Option Char :=
  if !f.verbose then s.head?
  else
    match s.dropWhile Unicode.isBlank with
    | '#' :: r =>
      match r.dropWhile Unicode.isBlank with
      | [] => s.head?
      | c :: _ => some c
    | [] => s.head?
    | c :: _ => some c

/-- Whether a hyphen is part of no range, from behind it. -/
def isLoneHyphen (f : PatternFlags) (s : List Char) : Bool :=
  deciding? f s = some ']' || deciding? f s = some '-'

/-- Reads an item that is not in brackets: a member, or a range between two. -/
def readItem (f : PatternFlags) (c : Char) (r : List Char) : Option (SetNotation × List Char) := do
  let (first, r) ← readMember f c r
  match skip f r with
  | '-' :: r =>
    if isLoneHyphen f r then return (← first.item? f, '-' :: r)
    let d :: r := skip f r | none
    let (last, r) ← readMember f d r
    let first ← first.rangeEnd? f
    let last ← last.rangeEnd? f
    if first ≤ last then return (.known (.range first last), r) else none
  | r => return (← first.item? f, r)

/-- Reads the name of an ASCII set, from behind its opening bracket: whether the set is left out,
the set, and the text behind the brackets. -/
def readNamed? : List Char → Option (Bool × CharSet × List Char)
  | ':' :: r =>
    let (negated, r) := match r with
      | '^' :: r => (true, r)
      | r => (false, r)
    match CharSet.ofName? (String.ofList (r.takeWhile (· ≠ ':'))), r.dropWhile (· ≠ ':') with
    | some s, ':' :: ']' :: rest => some (negated, s, rest)
    | _, _ => none
  | _ => none

/-- An ASCII set as an item. -/
def namedItem? (f : PatternFlags) (negated : Bool) (s : CharSet) : Option SetNotation :=
  if !negated then some (.known s)
  else if f.unicode then some (.known (.complement s))
  else none

/-- The left side of an operator, and the operator. -/
abbrev LeftSide := Option (SetNotation × SetOperator)

/-- The set of a left side and of the items behind it, the latest first. -/
def combined (left : LeftSide) (items : List SetNotation) : SetNotation :=
  match left with
  | none => .ofItems items.reverse
  | some (s, op) => .combine op s (.ofItems items.reverse)

/-- Reads the caret and the plain characters that a set begins with: whether there is a caret, the
items, and the text behind them. -/
def readFront (f : PatternFlags) (s : List Char) : Bool × List SetNotation × List Char :=
  let (negated, s) := match skip f s with
    | '^' :: r => (true, skip f r)
    | r => (false, r)
  match takeKind f (· = '-') false s with
  | ([], ']' :: r) => (negated, [plainItem ']'], r)
  | (hyphens, r) => (negated, hyphens.map plainItem, r)

mutual

/-- Reads a set from behind its opening bracket.  Every call uses up one unit of fuel; a text of `n`
characters takes at most `2 * n + 2` units. -/
def readSet (f : PatternFlags) : Nat → List Char → Option (SetNotation × List Char)
  | 0, _ => none
  | n + 1, s =>
    let (negated, items, r) := readFront f s
    if negated && !f.unicode then none
    else (readItems f n none items r).map fun (body, rest) => (.bracket negated body, rest)

/-- Reads items up to the closing bracket, behind a left side and earlier items. -/
def readItems (f : PatternFlags) :
    Nat → LeftSide → List SetNotation → List Char → Option (SetNotation × List Char)
  | 0, _, _, _ => none
  | n + 1, left, items, s =>
    match skip f s with
    | [] => none
    | ']' :: rest => some (combined left items, rest)
    | '[' :: r =>
      match readNamed? r with
      | some (negated, set, r) => do readItems f n left ((← namedItem? f negated set) :: items) r
      | none => do
        let (inner, r) ← readSet f n r
        readItems f n left (inner :: items) r
    | '&' :: '&' :: r => readItems f n (some (combined left items, .both)) [] r
    | '-' :: '-' :: r => readItems f n (some (combined left items, .less)) [] r
    | '~' :: '~' :: r => readItems f n (some (combined left items, .either)) [] r
    | c :: r => do
      let (item, r) ← readItem f c r
      readItems f n left (item :: items) r

end

end Notation

end AndroidFonts
