/-
# `AndroidFonts.Pattern.Notation` — what a pattern looks like when it is written

A written pattern is a tree (`Notation`): sets of characters, places between characters, groups,
repetitions, rows of items and choices among them.  It may say more than this library searches for.
`Notation.pattern?` is the pattern to search with; there is none if letters are to be matched in
either case, if fewer repetitions are preferred to more, or where a property is named or a place is
asked for that depends on the character before it.

`Notation.depth` counts how deep brackets, groups, repetitions, rows and choices lie in each other;
a pattern is only accepted up to a bound on it.
-/
import AndroidFonts.Pattern.Basic
import AndroidFonts.Pattern.Property

namespace AndroidFonts

/-! ## Flags -/

/-- A letter of `(?i)` and the like. -/
inductive PatternFlag where
  /-- `i`: letters match in either case. -/
  | ignoreCase
  /-- `m`: `^` and `$` stand at every line. -/
  | multiLine
  /-- `s`: `.` is any character. -/
  | anyCharacter
  /-- `U`: fewer repetitions are preferred unless a question mark follows. -/
  | swapGreed
  /-- `R`: a line may end with a carriage return. -/
  | carriageReturn
  /-- `x`: white space and comments are left out. -/
  | verbose
  /-- `u`: sets are those of Unicode; without it they are those of ASCII. -/
  | unicode
deriving Repr, DecidableEq

/-- The flag of a letter. -/
def PatternFlag.ofLetter? : Char → Option PatternFlag
  | 'i' => some .ignoreCase
  | 'm' => some .multiLine
  | 's' => some .anyCharacter
  | 'U' => some .swapGreed
  | 'R' => some .carriageReturn
  | 'x' => some .verbose
  | 'u' => some .unicode
  | _ => none

/-- The flags that are in force somewhere. -/
structure PatternFlags where
  ignoreCase : Bool
  multiLine : Bool
  anyCharacter : Bool
  swapGreed : Bool
  carriageReturn : Bool
  verbose : Bool
  unicode : Bool
deriving Repr, DecidableEq

namespace PatternFlags

/-- The flags in force at the start of a pattern. -/
def initial : PatternFlags := ⟨false, false, false, false, false, false, true⟩

/-- The flags with one of them set or cleared. -/
def set (f : PatternFlags) (flag : PatternFlag) (value : Bool) : PatternFlags :=
  match flag with
  | .ignoreCase => { f with ignoreCase := value }
  | .multiLine => { f with multiLine := value }
  | .anyCharacter => { f with anyCharacter := value }
  | .swapGreed => { f with swapGreed := value }
  | .carriageReturn => { f with carriageReturn := value }
  | .verbose => { f with verbose := value }
  | .unicode => { f with unicode := value }

end PatternFlags

/-! ## Sets -/

namespace CharSet

/-- The characters in some ranges. -/
def ofRanges (ranges : List (Char × Char)) : CharSet :=
  ranges.foldr (fun (first, last) s => .union (.range first last) s) .empty

/-- The characters in both sets. -/
def both (a b : CharSet) : CharSet := .complement (.union (.complement a) (.complement b))

/-- The characters in the first set only. -/
def less (a b : CharSet) : CharSet := both a (.complement b)

/-- The characters in one of the sets only. -/
def either (a b : CharSet) : CharSet := .union (a.less b) (b.less a)

theorem has_both (a b : CharSet) (c : Char) : (a.both b).has c = (a.has c && b.has c) := by
  simp [both, has]

theorem has_less (a b : CharSet) (c : Char) : (a.less b).has c = (a.has c && !b.has c) := by
  simp [less, has_both, has]

theorem has_either (a b : CharSet) (c : Char) :
    (a.either b).has c = (a.has c && !b.has c || b.has c && !a.has c) := by
  simp [either, has, has_less]

/-- The ASCII sets that have a name between colons. -/
def ofName? : String → Option CharSet
  | "alnum" => some (ofRanges [('0', '9'), ('A', 'Z'), ('a', 'z')])
  | "alpha" => some (ofRanges [('A', 'Z'), ('a', 'z')])
  | "ascii" => some (ofRanges [('\x00', '\x7f')])
  | "blank" => some (ofRanges [('\t', '\t'), (' ', ' ')])
  | "cntrl" => some (ofRanges [('\x00', '\x1f'), ('\x7f', '\x7f')])
  | "digit" => some (ofRanges [('0', '9')])
  | "graph" => some (ofRanges [('!', '~')])
  | "lower" => some (ofRanges [('a', 'z')])
  | "print" => some (ofRanges [(' ', '~')])
  | "punct" => some (ofRanges [('!', '/'), (':', '@'), ('[', '\x60'), ('{', '~')])
  | "space" => some (ofRanges [('\t', '\r'), (' ', ' ')])
  | "upper" => some (ofRanges [('A', 'Z')])
  | "word" => some (ofRanges [('0', '9'), ('A', 'Z'), ('_', '_'), ('a', 'z')])
  | "xdigit" => some (ofRanges [('0', '9'), ('A', 'F'), ('a', 'f')])
  | _ => none

end CharSet

/-- How two sets in brackets are put together. -/
inductive SetOperator where
  /-- `&&` -/
  | both
  /-- `--` -/
  | less
  /-- `~~` -/
  | either
deriving Repr, DecidableEq

def SetOperator.apply : SetOperator → CharSet → CharSet → CharSet
  | .both => .both
  | .less => .less
  | .either => .either

/-- A set of characters as it is written. -/
inductive SetNotation where
  /-- Nothing, on a side of an operator. -/
  | empty
  | known (s : CharSet)
  | property (negated : Bool) (p : CharProperty)
  /-- Two or more items side by side. -/
  | union (items : List SetNotation)
  | bracket (negated : Bool) (body : SetNotation)
  | combine (op : SetOperator) (left right : SetNotation)
deriving Repr

namespace SetNotation

/-- Items side by side. -/
def ofItems : List SetNotation → SetNotation
  | [] => .empty
  | [s] => s
  | items => .union items

mutual

/-- How deep brackets and their parts lie in each other. -/
def depth : SetNotation → Nat
  | .union items => 1 + depthOfAll items
  | .bracket _ body => 1 + body.depth
  | .combine _ left right => 1 + max left.depth right.depth
  | _ => 0

def depthOfAll : List SetNotation → Nat
  | [] => 0
  | s :: items => max s.depth (depthOfAll items)

end

mutual

/-- The set, unless a property is named in it. -/
def charSet? : SetNotation → Option CharSet
  | .empty => some .empty
  | .known s => some s
  | .property .. => none
  | .union items => unionOf? items
  | .bracket negated body => body.charSet?.map fun s => if negated then .complement s else s
  | .combine op left right => do return op.apply (← left.charSet?) (← right.charSet?)

def unionOf? : List SetNotation → Option CharSet
  | [] => some .empty
  | [s] => s.charSet?
  | s :: items => do return .union (← s.charSet?) (← unionOf? items)

end

end SetNotation

/-! ## Patterns -/

/-- A place between characters that a pattern asks for. -/
inductive Boundary where
  /-- `^` -/
  | lineStart
  /-- `$` -/
  | lineEnd
  | textStart
  | textEnd
  | word
  | notWord
  | wordStart
  | wordEnd
  /-- No word character stands before the place. -/
  | wordStartHalf
  /-- No word character stands behind the place. -/
  | wordEndHalf
deriving Repr, DecidableEq

/-- A pattern as it is written. -/
inductive Notation where
  /-- Nothing. -/
  | empty
  | chars (ignoreCase : Bool) (set : SetNotation)
  | boundary (flags : PatternFlags) (b : Boundary)
  /-- A change of flags, which matches nothing. -/
  | flags
  | group (body : Notation)
  /-- Between `low` and `high` times; without `high`, any number of times from `low` on. -/
  | repeated (body : Notation) (low : Nat) (high : Option Nat) (greedy : Bool)
  /-- Two or more items in a row. -/
  | row (items : List Notation)
  /-- Two or more alternatives, the preferred one first. -/
  | choice (alternatives : List Notation)
deriving Repr

namespace Notation

/-- Items in a row. -/
def ofItems : List Notation → Notation
  | [] => .empty
  | [p] => p
  | items => .row items

/-- Alternatives. -/
def ofAlternatives : List Notation → Notation
  | [] => .empty
  | [p] => p
  | alternatives => .choice alternatives

mutual

/-- How deep the parts of a pattern lie in each other. -/
def depth : Notation → Nat
  | .chars _ set => set.depth
  | .group body => 1 + body.depth
  | .repeated body _ _ _ => 1 + body.depth
  | .row items => 1 + depthOfAll items
  | .choice alternatives => 1 + depthOfAll alternatives
  | _ => 0

def depthOfAll : List Notation → Nat
  | [] => 0
  | p :: items => max p.depth (depthOfAll items)

end

/-- The bound on the depth of patterns. -/
def maxDepth : Nat := 250

/-- Any number of times; a loop over a set of characters is kept as such. -/
def starOf : Pattern → Pattern
  | .one s => .many s
  | p => .star p

/-- A pattern at most so many times. -/
def atMost (p : Pattern) : Nat → Pattern
  | 0 => .empty
  | 1 => .opt p
  | n + 2 => .opt (.seq p (atMost p (n + 1)))

/-- A pattern at least `low` times, and at most `high` times if that is given. -/
def times (p : Pattern) (low : Nat) (high : Option Nat) : Pattern :=
  low.repeat (.seq p) <|
    match high with
    | none => starOf p
    | some high => atMost p (high - low)

/-- The pattern of a place, where it only depends on what follows. -/
def ofBoundary? (f : PatternFlags) : Boundary → Option Pattern
  | .lineEnd =>
    if !f.multiLine then some .textEnd else if f.carriageReturn then none else some .lineEnd
  | .textEnd => some .textEnd
  | _ => none

mutual

/-- The pattern to search with, if there is one. -/
def pattern? : Notation → Option Pattern
  | .empty => some .empty
  | .chars ignoreCase set => if ignoreCase then none else set.charSet?.map .one
  | .boundary f b => ofBoundary? f b
  | .flags => some .empty
  | .group body => body.pattern?
  | .repeated body low high greedy =>
    if greedy then body.pattern?.map fun p => times p low high else none
  | .row items => sequence? items
  | .choice alternatives => choice? alternatives

def sequence? : List Notation → Option Pattern
  | [] => some .empty
  | p :: items => do return .seq (← p.pattern?) (← sequence? items)

def choice? : List Notation → Option Pattern
  | [] => none
  | [p] => p.pattern?
  | p :: rest => do return .alt (← p.pattern?) (← choice? rest)

end

end Notation

end AndroidFonts
