/-
# `AndroidFonts.Xml.Token` — the marks of an XML text

An XML text is a row of tokens: tags, text, comments, processing instructions, literal sections.
Each is read from the front of what remains.  Attribute values and text are read with their
references resolved; a text with a reference to anything but a character or one of the five
predefined entities is not well-formed here, since there are no other entities without a document
type, and a document type is refused.
-/
import AndroidFonts.Text.Search

namespace AndroidFonts.Xml

open Text

/-! ## Characters -/

def isSpace (c : Char) : Bool :=
  c = ' ' || c = '\t' || c = '\n' || c = '\r'

/-- Whether a character may stand in an XML text at all. -/
def isLegal (c : Char) : Bool :=
  if c.toNat < 0x20 then isSpace c else c.toNat ≠ 0xfffe && c.toNat ≠ 0xffff

/-- The characters beyond ASCII that may begin a name. -/
def nameStartRanges : List (Nat × Nat) :=
  [(0xc0, 0xd6), (0xd8, 0xf6), (0xf8, 0x2ff), (0x370, 0x37d), (0x37f, 0x1fff), (0x200c, 0x200d),
    (0x2070, 0x218f), (0x2c00, 0x2fef), (0x3001, 0xd7ff), (0xf900, 0xfdcf), (0xfdf0, 0xfffd),
    (0x10000, 0xeffff)]

/-- The characters beyond ASCII that may stand in a name but not begin it. -/
def nameInnerRanges : List (Nat × Nat) :=
  [(0xb7, 0xb7), (0x300, 0x36f), (0x203f, 0x2040)]

/-- Whether a character may begin a part of a name; the colon parts them. -/
def isNameStart (c : Char) : Bool :=
  c.isAlpha || c = '_' || nameStartRanges.any fun (a, b) => a ≤ c.toNat && c.toNat ≤ b

/-- Whether a character may stand in a part of a name. -/
def isNameChar (c : Char) : Bool :=
  isNameStart c || c.isDigit || c = '-' || c = '.' ||
    nameInnerRanges.any fun (a, b) => a ≤ c.toNat && c.toNat ≤ b

def skipSpaces (s : List Char) : List Char := s.dropWhile isSpace

/-! ## Names -/

/-- A name with an optional part in front of a colon; `""` if there is none. -/
structure Name where
  qualifier : String
  localName : String
deriving Repr, DecidableEq

/-- Whether a text is a part of a name. -/
def isNamePart : List Char → Bool
  | [] => false
  | c :: r => isNameStart c && r.all isNameChar

/-- The name that the characters before and after a colon make. -/
def Name.ofParts? (qualifier localName : List Char) : Option Name :=
  if (qualifier = [] || isNamePart qualifier) && isNamePart localName then
    some ⟨String.ofList qualifier, String.ofList localName⟩
  else none

/-- Reads a name.  A colon may stand in front of a name without qualifier. -/
def readName (s : List Char) : Option (Name × List Char) :=
  let first := s.takeWhile isNameChar
  match s.dropWhile isNameChar with
  | ':' :: r =>
    match r.dropWhile isNameChar with
    | ':' :: _ => none
    | rest => (Name.ofParts? first (r.takeWhile isNameChar)).map fun n => (n, rest)
  | rest => (Name.ofParts? [] first).map fun n => (n, rest)

/-- Reads the target of an instruction or the name of an entity, colons taken as letters. -/
def readPlainName (s : List Char) : Option (List Char × List Char) :=
  match s with
  | [] => none
  | c :: _ =>
    if isNameStart c || c = ':' then
      let inName := fun d => isNameChar d || d = ':'
      some (s.takeWhile inName, s.dropWhile inName)
    else none

/-! ## References -/

def hexDigit? (c : Char) : Option Nat :=
  if c.isDigit then some (c.toNat - '0'.toNat)
  else if 'a' ≤ c && c ≤ 'f' then some (c.toNat - 'a'.toNat + 10)
  else if 'A' ≤ c && c ≤ 'F' then some (c.toNat - 'A'.toNat + 10)
  else none

def decimalDigit? (c : Char) : Option Nat :=
  if c.isDigit then some (c.toNat - '0'.toNat) else none

/-- The character with a code point.  A number that is no Unicode scalar value stands for the
replacement character; one of more than 32 bits, or an illegal character, for none. -/
def charOfCode? (n : Nat) : Option Char :=
  if 0x100000000 ≤ n then none
  else
    let c := if n.isValidChar then Char.ofNat n else '\ufffd'
    if isLegal c then some c else none

/-- Reads the digits of a character reference and the semicolon after them. -/
def readCode (base : Nat) (digit? : Char → Option Nat) (s : List Char) :
    Option (Char × List Char) :=
  let digits := s.takeWhile fun c => (digit? c).isSome
  match digits, s.dropWhile fun c => (digit? c).isSome with
  | _ :: _, ';' :: rest =>
    (charOfCode? (digits.foldl (fun n c => base * n + (digit? c).getD 0) 0)).map fun c => (c, rest)
  | _, _ => none

/-- Reads a reference, from behind its ampersand. -/
def readReference : List Char → Option (Char × List Char)
  | '#' :: 'x' :: s => readCode 16 hexDigit? s
  | '#' :: s => readCode 10 decimalDigit? s
  | s => do
    let (name, rest) ← readPlainName s
    let ';' :: rest := rest | none
    match String.ofList name with
    | "quot" => some ('"', rest)
    | "amp" => some ('&', rest)
    | "apos" => some ('\'', rest)
    | "lt" => some ('<', rest)
    | "gt" => some ('>', rest)
    | _ => none

/-- The value of an attribute: references resolved, and each line break or tab that is written as
such read as a space. -/
def attributeValue? (s : List Char) : Option (List Char) :=
  go s.length s
where
  /-- Each round takes up at least one character. -/
  go : Nat → List Char → Option (List Char)
    | _, [] => some []
    | 0, _ :: _ => none
    | n + 1, '&' :: s => do
      let (c, rest) ← readReference s
      return c :: (← go n rest)
    | n + 1, '\r' :: '\n' :: s => (go n s).map (' ' :: ·)
    | n + 1, c :: s => (go n s).map ((if isSpace c then ' ' else c) :: ·)

/-! ## Tokens -/

/-- An attribute as written, its value resolved. -/
structure RawAttribute where
  name : Name
  value : String
deriving Repr, DecidableEq

inductive Token where
  /-- A tag that opens an element; `closed` if it closes it too. -/
  | startTag (name : Name) (attributes : List RawAttribute) (closed : Bool)
  | endTag (name : Name)
  /-- Text between tags, as written. -/
  | text (raw : List Char)
  /-- A literal section. -/
  | literal
  /-- A comment or a processing instruction. -/
  | remark
deriving Repr, DecidableEq

/-- Reads up to `mark`, which is skipped; what stands before it has to be legal. -/
def readUntil (mark s : List Char) : Option (List Char × List Char) :=
  match cut? mark s with
  | some (p, q) => if p.all isLegal then some (p, q) else none
  | none => none

/-- Reads a comment, from behind its opening mark.  It holds no double hyphen. -/
def readComment (s : List Char) : Option (List Char) := do
  let (body, rest) ← readUntil ['-', '-', '>'] s
  if occursIn ['-', '-'] body || body.getLast? = some '-' then none else some rest

/-- Reads a processing instruction, from behind its opening mark. -/
def readInstruction (s : List Char) : Option (List Char) := do
  let (_, r) ← readPlainName s
  let (_, rest) ← readUntil ['?', '>'] (skipSpaces r)
  return rest

/-- Reads an equals sign and a quoted text, which ends at the same quote. -/
def readQuoted (s : List Char) : Option (List Char × List Char) :=
  match skipSpaces s with
  | '=' :: r =>
    match skipSpaces r with
    | quote :: r =>
      if quote = '"' || quote = '\'' then readUntil [quote] r else none
    | [] => none
  | _ => none

/-- Reads a name with a quoted text, which may not hold `<` as such. -/
def readPair (s : List Char) : Option (Name × List Char × List Char) := do
  let (name, r) ← readName s
  let (raw, rest) ← readQuoted r
  if '<' ∈ raw then none else return (name, raw, rest)

/-- Reads an attribute. -/
def readAttribute (s : List Char) : Option (RawAttribute × List Char) := do
  let (name, raw, rest) ← readPair s
  return (⟨name, String.ofList (← attributeValue? raw)⟩, rest)

/-- Reads what follows the name of a start tag: attributes, each after a space, and the end of the
tag.  Each round takes up at least one character. -/
def readAttributes : Nat → List Char → Option (List RawAttribute × Bool × List Char)
  | 0, _ => none
  | n + 1, s =>
    match skipSpaces s with
    | '>' :: rest => some ([], false, rest)
    | '/' :: '>' :: rest => some ([], true, rest)
    | r =>
      if r.length = s.length then none
      else do
        let (a, r) ← readAttribute r
        let (as, closed, rest) ← readAttributes n r
        return (a :: as, closed, rest)

/-- Whether a text between tags is well-formed: legal, with good references, and without the mark
that ends a literal section. -/
def isText (raw : List Char) : Bool :=
  raw.all isLegal && !occursIn [']', ']', '>'] raw && (attributeValue? raw).isSome

/-- Reads one token. -/
def readToken (s : List Char) : Option (Token × List Char) :=
  match s with
  | '<' :: '!' :: '-' :: '-' :: r => (readComment r).map fun rest => (.remark, rest)
  | '<' :: '!' :: r =>
    match afterPrefix? "[CDATA[".toList r with
    | some r => (readUntil [']', ']', '>'] r).map fun (_, rest) => (.literal, rest)
    | none => none
  | '<' :: '?' :: r =>
    match afterPrefix? "xml ".toList r with
    | some _ => none
    | none => (readInstruction r).map fun rest => (.remark, rest)
  | '<' :: '/' :: r => do
    let (name, r) ← readName r
    match skipSpaces r with
    | '>' :: rest => some (.endTag name, rest)
    | _ => none
  | '<' :: r => do
    let (name, r) ← readName r
    let (attributes, closed, rest) ← readAttributes (r.length + 1) r
    return (.startTag name attributes closed, rest)
  | s =>
    let raw := s.takeWhile (· ≠ '<')
    if isText raw then some (.text raw, s.dropWhile (· ≠ '<')) else none

/-- The text behind at least one space, which may be missing before the end of a declaration. -/
def skipGap (s : List Char) : Option (List Char) :=
  match s with
  | [] => some []
  | c :: _ =>
    if isSpace c then some (skipSpaces s)
    else if (afterPrefix? ['?', '>'] s).isSome then some s
    else none

/-- The text behind a field of a declaration whose name begins like this; none if there is no such
field here. -/
def readField (start s : List Char) : Option (List Char) :=
  match afterPrefix? start s with
  | some _ => (readPair s).map fun (_, _, rest) => rest
  | none => none

/-- Reads the declaration `<?xml … ?>`, from behind its name.  A version comes first; an encoding
and a note on other documents may follow. -/
def readDeclaration (s : List Char) : Option (List Char) := do
  let s ← skipGap (← readField "version".toList (← skipGap s))
  let s ← optional "encoding".toList s skipGap
  let s ← optional "standalone".toList s some
  afterPrefix? ['?', '>'] (skipSpaces s)
where
  /-- Reads a field that may be missing, and what has to stand behind it. -/
  optional (start s : List Char) (behind : List Char → Option (List Char)) : Option (List Char) :=
    match afterPrefix? start s with
    | some _ => (readField start s).bind behind
    | none => some s

/-- The text behind a byte order mark and a declaration, where there are any. -/
def skipProlog (s : List Char) : Option (List Char) :=
  let s := match s with
    | '\ufeff' :: r => r
    | s => s
  match afterPrefix? "<?xml ".toList s with
  | some r => readDeclaration (' ' :: r)
  | none => some s

/-- All tokens of a text.  Each takes up at least one character, so the length bounds the rounds. -/
def readTokens : Nat → List Char → Option (List Token)
  | _, [] => some []
  | 0, _ :: _ => none
  | n + 1, s => do
    let (t, rest) ← readToken s
    return t :: (← readTokens n rest)

/-- The tokens of a document. -/
def tokens? (s : List Char) : Option (List Token) := do
  let r ← skipProlog s
  readTokens r.length r

end AndroidFonts.Xml
