/-
# `AndroidFonts.Pattern.Escape` — escapes in written patterns

A backslash gives a punctuation character its plain meaning, and some letters and digits a special
one: a control character, a code point, a set, a property, or a place between characters.

With the flag `x` white space and comments may stand almost everywhere, also inside an escape, and
are passed over.  Without the flag `u` a pattern stays within ASCII: there are no properties, no
sets that are told by what they leave out, and no bytes beyond 0x7f.
-/
import AndroidFonts.Pattern.Notation
import AndroidFonts.Text.Numeral

namespace AndroidFonts

namespace Pattern

/-- The characters that have a meaning in the notation. -/
def isMeta (c : Char) : Bool :=
  c ∈ ['\\', '.', '+', '*', '?', '(', ')', '|', '[', ']', '{', '}', '^', '$', '#', '&',
    '-', '~']

/-- A text written so that it is read as a pattern of itself. -/
def escape (s : List Char) : List Char :=
  s.flatMap fun c => if isMeta c then ['\\', c] else [c]

end Pattern

namespace Notation

/-! ## White space and comments -/

/-- The text behind white space and comments.  A comment goes from a number sign to the end of its
line. -/
def dropBlank (inComment : Bool) : List Char → List Char
  | [] => []
  | c :: r =>
    if inComment then dropBlank (c ≠ '\n') r
    else if c = '#' then dropBlank true r
    else if Unicode.isBlank c then dropBlank false r
    else c :: r

/-- The text behind what is passed over. -/
def skip (f : PatternFlags) (s : List Char) : List Char :=
  if f.verbose then dropBlank false s else s

/-- Takes characters of a kind from the front, without what is passed over between them. -/
def takeKind (f : PatternFlags) (kind : Char → Bool) (inComment : Bool) :
    List Char → List Char × List Char
  | [] => ([], [])
  | c :: r =>
    if inComment then takeKind f kind (c ≠ '\n') r
    else if f.verbose && c = '#' then takeKind f kind true r
    else if f.verbose && Unicode.isBlank c then takeKind f kind false r
    else if kind c then
      let (taken, rest) := takeKind f kind false r
      (c :: taken, rest)
    else ([], c :: r)

/-- Takes exactly so many characters of a kind. -/
def takeExactly (f : PatternFlags) (kind : Char → Bool) :
    Nat → List Char → Option (List Char × List Char)
  | 0, s => some ([], s)
  | n + 1, s =>
    match skip f s with
    | [] => none
    | c :: r =>
      if kind c then (takeExactly f kind n r).map fun (taken, rest) => (c :: taken, rest) else none

/-! ## Escapes -/

/-- What an escape stands for. -/
inductive Escaped where
  | char (c : Char)
  /-- A character given by two digits; without the flag `u` it is a byte. -/
  | byte (c : Char)
  | set (s : SetNotation)
  | boundary (b : Boundary)
deriving Repr

/-- Whether a byte or a member of a set is admitted. -/
def admits (f : PatternFlags) (c : Char) : Bool := f.unicode || c.toNat < 0x80

def isHex (c : Char) : Bool := (Text.hexValue? c).isSome

/-- Reads a code point: `width` digits, or any number of them in braces. -/
def readHex (f : PatternFlags) (width : Nat) (s : List Char) : Option (Escaped × List Char) :=
  match skip f s with
  | '{' :: r =>
    match takeKind f isHex false r with
    | ([], _) => none
    | (digits, '}' :: rest) => (Text.charOfHex? digits).map fun c => (.char c, rest)
    | _ => none
  | s => do
    let (digits, rest) ← takeExactly f isHex width s
    let c ← Text.charOfHex? digits
    return (if width = 2 then .byte c else .char c, rest)

/-- A property that there is. -/
def property? (negated : Bool) (p : CharProperty) : Option Escaped :=
  if p.isKnown then some (.set (.property negated p)) else none

/-- Reads a property: one letter, or a name in braces. -/
def readProperty (f : PatternFlags) (negated : Bool) (s : List Char) :
    Option (Escaped × List Char) :=
  if !f.unicode then none
  else
    match skip f s with
    | [] => none
    | '\\' :: _ => none
    | '{' :: r =>
      match takeKind f (· ≠ '}') false r with
      | (name, _ :: rest) => (property? negated (CharProperty.ofText name)).map (·, rest)
      | (_, []) => none
    | c :: rest => (property? negated (.named (String.singleton c))).map (·, rest)

/-- The place that a name in braces after `\b` stands for. -/
def boundaryOf? : String → Option Boundary
  | "start" => some .wordStart
  | "end" => some .wordEnd
  | "start-half" => some .wordStartHalf
  | "end-half" => some .wordEndHalf
  | _ => none

/-- Whether a character may stand in such a name. -/
def isBoundaryChar (c : Char) : Bool := c.isAlpha || c = '-'

/-- Reads what may follow `\b`.  Braces that hold no name are left for a count. -/
def readWordBoundary (f : PatternFlags) (s : List Char) : Option (Escaped × List Char) :=
  match s with
  | '{' :: r =>
    match takeKind f isBoundaryChar false r with
    | (name, '}' :: rest) =>
      if name = [] then some (.boundary .word, s)
      else (boundaryOf? (String.ofList name)).map fun b => (.boundary b, rest)
    | (name, _ :: _) => if name = [] then some (.boundary .word, s) else none
    | (_, []) => none
  | s => some (.boundary .word, s)

/-- The set of a small letter. -/
def setOf? (f : PatternFlags) : Char → Option CharSet
  | 's' => if f.unicode then some .blank else CharSet.ofName? "space"
  | 'w' => if f.unicode then some .word else CharSet.ofName? "word"
  | 'd' => if f.unicode then some .decimal else CharSet.ofName? "digit"
  | _ => none

/-- The set that is left out by a capital letter. -/
def leftOutBy? (f : PatternFlags) : Char → Option CharSet
  | 'S' => if f.unicode then some .blank else none
  | 'W' => if f.unicode then some .word else none
  | 'D' => if f.unicode then some .decimal else none
  | _ => none

/-- The control character of a letter. -/
def controlOf? : Char → Option Char
  | 'a' => some '\x07'
  | 'f' => some '\x0c'
  | 't' => some '\t'
  | 'n' => some '\n'
  | 'r' => some '\r'
  | 'v' => some '\x0b'
  | _ => none

/-- The place of a letter or a bracket. -/
def placeOf? : Char → Option Boundary
  | 'A' => some .textStart
  | 'z' => some .textEnd
  | 'B' => some .notWord
  | '<' => some .wordStart
  | '>' => some .wordEnd
  | _ => none

/-- Whether a character may have a backslash before it and stand for itself all the same. -/
def isQuotable (c : Char) : Bool :=
  c.toNat < 0x80 && !c.isAlphanum && c ≠ '<' && c ≠ '>'

/-- What a character after a backslash stands for on its own. -/
def escapedBy? (f : PatternFlags) (c : Char) : Option Escaped :=
  if isQuotable c then some (.char c)
  else
    match setOf? f c, leftOutBy? f c, controlOf? c, placeOf? c with
    | some s, _, _, _ => some (.set (.known s))
    | _, some s, _, _ => some (.set (.known (.complement s)))
    | _, _, some d, _ => some (.char d)
    | _, _, _, some b => some (.boundary b)
    | _, _, _, _ => none

/-- Reads an escape, from behind its backslash. -/
def readEscape (f : PatternFlags) : List Char → Option (Escaped × List Char)
  | [] => none
  | 'x' :: r => readHex f 2 r
  | 'u' :: r => readHex f 4 r
  | 'U' :: r => readHex f 8 r
  | 'p' :: r => readProperty f false r
  | 'P' :: r => readProperty f true r
  | 'b' :: r => readWordBoundary f r
  | c :: r => (escapedBy? f c).map (·, r)

/-- A character with a meaning of its own loses it behind a backslash. -/
theorem readEscape_of_isMeta (f : PatternFlags) {c : Char} (h : Pattern.isMeta c) (r : List Char) :
    readEscape f (c :: r) = some (.char c, r) := by
  have hmem : c ∈ ['\\', '.', '+', '*', '?', '(', ')', '|', '[', ']', '{', '}', '^', '$',
      '#', '&', '-', '~'] := by simpa [Pattern.isMeta] using h
  simp only [List.mem_cons, List.not_mem_nil, or_false] at hmem
  rcases hmem with rfl | rfl | rfl | rfl | rfl | rfl | rfl | rfl | rfl | rfl | rfl | rfl | rfl |
    rfl | rfl | rfl | rfl | rfl <;> rfl

end Notation

end AndroidFonts
