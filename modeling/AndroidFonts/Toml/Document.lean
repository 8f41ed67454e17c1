/-
# `AndroidFonts.Toml.Document` — TOML documents

A document is a row of lines; a line holds a header, a key with its value, or neither.  Reading a
line gives a `Statement`, and the statements are put together on the open tables of
`AndroidFonts.Toml.Value`.  A document is refused as a whole if any part of it is wrong.
-/
import AndroidFonts.Toml.Scalar

namespace AndroidFonts.Toml

open Text

/-- Skips a comment, if one begins here. -/
def skipComment (s : List Char) : List Char :=
  match s with
  | '#' :: r => r.dropWhile isPlain
  | s => s

/-- Skips white space, comments and line breaks; each round skips one line break. -/
def skipBreaks : Nat → List Char → List Char
  | 0, s => s
  | n + 1, s =>
    let r := skipComment (skipWs s)
    match afterNewline? r with
    | some r => skipBreaks n r
    | none => r

/-- Skips what may stand between the parts of an array or an inline table. -/
def skipBlank (s : List Char) : List Char := skipBreaks s.length s

/-! ## Keys -/

def isBareKeyChar (c : Char) : Bool := c.isAlphanum || c = '_' || c = '-'

/-- Reads one part of a key: bare, or a string on one line. -/
def readKeyPart (s : List Char) : Option (String × List Char) :=
  match s with
  | '"' :: r => (readBasic r).map fun (k, rest) => (String.ofList k, rest)
  | '\'' :: r => (readLiteral r).map fun (k, rest) => (String.ofList k, rest)
  | s =>
    let k := s.takeWhile isBareKeyChar
    if k = [] then none else some (String.ofList k, s.dropWhile isBareKeyChar)

/-- The number of parts that a key may have. -/
def maxKeyParts : Nat := 80

/-- Reads a key of at most so many parts, and the white space after it. -/
def readKey : Nat → List Char → Option (List String × List Char)
  | 0, _ => none
  | n + 1, s => do
    let (k, r) ← readKeyPart s
    match skipWs r with
    | '.' :: r =>
      let (ks, rest) ← readKey n (skipWs r)
      return (k :: ks, rest)
    | rest => return ([k], rest)

/-! ## Values -/

/-- The number of arrays and inline tables that may lie in each other. -/
def maxLevels : Nat := 80

mutual

/-- Reads a value with at most so many levels of arrays and inline tables.  Every call uses up one
unit of fuel, the second number; a text of `n` characters takes at most `2 * n + 2` units. -/
def readValue : Nat → Nat → List Char → Option (Value × List Char)
  | _, 0, _ => none
  | levels, n + 1, s =>
    match levels, s with
    | levels + 1, '[' :: r =>
      (readItems levels n (skipBlank r)).map fun (vs, rest) => (.array vs, rest)
    | levels + 1, '{' :: r =>
      (readEntries levels n (skipBlank r) []).map fun (es, rest) =>
        (.table (entriesToValues es), rest)
    | _, '"' :: r =>
      (readString ('"' :: r)).map fun (t, rest) => (.string (String.ofList t), rest)
    | _, '\'' :: r =>
      (readString ('\'' :: r)).map fun (t, rest) => (.string (String.ofList t), rest)
    | _, s => readScalar s

/-- Reads the items of an array through its closing bracket. -/
def readItems : Nat → Nat → List Char → Option (List Value × List Char)
  | _, 0, _ => none
  | levels, n + 1, s =>
    match s with
    | ']' :: rest => some ([], rest)
    | s => do
      let (v, r) ← readValue levels n s
      match skipBlank r with
      | ',' :: r =>
        let (vs, rest) ← readItems levels n (skipBlank r)
        return (v :: vs, rest)
      | ']' :: rest => return ([v], rest)
      | _ => none

/-- Reads the entries of an inline table through its closing brace. -/
def readEntries : Nat → Nat → List Char → Entries → Option (Entries × List Char)
  | _, 0, _, _ => none
  | levels, n + 1, s, es =>
    match s with
    | '}' :: rest => some (es, rest)
    | s => do
      let (k, r) ← readKey maxKeyParts s
      let '=' :: r := r | none
      let (v, r) ← readValue levels n (skipWs r)
      let es ← es.assign v k
      match skipBlank r with
      | ',' :: r => readEntries levels n (skipBlank r) es
      | '}' :: rest => return (es, rest)
      | _ => none

end

/-! ## Lines -/

/-- What a line of a document says. -/
inductive Statement where
  | table (path : List String)
  | item (path : List String)
  | assign (key : List String) (v : Value)
deriving Repr

/-- Reads a header up to its closing bracket, or a key with its value. -/
def readStatement (s : List Char) : Option (Statement × List Char) :=
  match s with
  | '[' :: '[' :: r => do
    let (path, r) ← readKey maxKeyParts (skipWs r)
    let ']' :: ']' :: rest := r | none
    return (.item path, rest)
  | '[' :: r => do
    let (path, r) ← readKey maxKeyParts (skipWs r)
    let ']' :: rest := r | none
    return (.table path, rest)
  | s => do
    let (key, r) ← readKey maxKeyParts s
    let '=' :: r := r | none
    let (v, rest) ← readValue maxLevels (2 * s.length + 2) (skipWs r)
    return (.assign key v, rest)

/-- The text of the next line, if this one ends here but for a comment. -/
def endLine? (s : List Char) : Option (List Char) :=
  match skipComment (skipWs s) with
  | [] => some []
  | r => afterNewline? r

/-- Reads the statements of a text, line by line. -/
def readStatements : Nat → List Char → Option (List Statement)
  | _, [] => some []
  | 0, _ :: _ => none
  | n + 1, s =>
    match endLine? s with
    | some rest => readStatements n rest
    | none => do
      let (statement, r) ← readStatement (skipWs s)
      return statement :: (← readStatements n (← endLine? r))

/-- The root table, and the header that keys go below. -/
structure DocumentBuilder where
  root : Entries
  current : List String

namespace DocumentBuilder

/-- Takes in a statement. -/
def step (b : DocumentBuilder) : Statement → Option DocumentBuilder
  | .table path => do
    let last ← path.getLast?
    return ⟨← b.root.descend (·.openTable last) path.dropLast, path⟩
  | .item path => do
    let last ← path.getLast?
    return ⟨← b.root.descend (·.openItem last) path.dropLast, path⟩
  | .assign key v => do
    return { b with root := ← b.root.descend (·.assign v key) b.current }

end DocumentBuilder

/-- The root table of a TOML text; none if the text is not TOML. -/
def parse? (text : String) : Option (List (String × Value)) := do
  let s := match text.toList with
    | '\ufeff' :: r => r
    | s => s
  let statements ← readStatements (s.length + 1) s
  let b ← statements.foldlM DocumentBuilder.step ⟨[], []⟩
  return entriesToValues b.root

end AndroidFonts.Toml
