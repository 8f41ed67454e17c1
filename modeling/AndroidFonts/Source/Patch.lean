/-
# `AndroidFonts.Source.Patch` — changes to a source text

Three changes: a statement is written into a method body, an import is written after the package
declaration, lines are dropped.  The first two look first whether the text already has what they
would write, so that applying them again changes nothing.
-/
import AndroidFonts.Source.Body
import AndroidFonts.Text.Lines

namespace AndroidFonts

open Text

/-- The outcome of a change that did not fail. -/
inductive TextPatch where
  | applied (text : String)
  /-- The text has what would be written. -/
  | alreadyApplied
deriving Repr, DecidableEq

/-- The text after a change to `text`. -/
def TextPatch.textOr (text : String) : TextPatch → String
  | .applied patched => patched
  | .alreadyApplied => text

namespace Body

/-- What stands before every inserted statement. -/
def indent : List Char := [' ', ' ', ' ', ' ']

/-- The line break of a body: CR LF if it holds one, else LF. -/
def newline (b : Body) : List Char :=
  if occursIn ['\r', '\n'] b.inside then ['\r', '\n'] else ['\n']

/-- The line a statement is to follow: trimmed, and none if nothing is left. -/
def anchorOf (afterLine : Option String) : Option (List Char) :=
  (afterLine.map fun line => Unicode.trim line.toList).filter fun line => line ≠ []

/-- The inside of a body before and after the place where a statement goes: the end of the line on
which the anchor first stands, or the end of the body if there is no anchor. -/
def insertionPoint (b : Body) : Option (List Char) → Except PatchError (List Char × List Char)
  | none => .ok (b.inside, [])
  | some anchor =>
    match cut? anchor b.inside with
    | none => .error (.anchorLineNotFound (String.ofList anchor))
    | some (p, q) =>
      match cut? b.newline q with
      | none => .ok (p ++ anchor ++ q, [])
      | some (line, rest) => .ok (p ++ anchor ++ line, b.newline ++ rest)

/-- Writes a statement on a line of its own, unless the body already holds it. -/
def insert (b : Body) (snippet : String) (afterLine : Option String) :
    Except PatchError TextPatch :=
  if occursIn (Unicode.trim snippet.toList) b.inside then .ok .alreadyApplied
  else do
    let (head, tail) ← b.insertionPoint (anchorOf afterLine)
    return .applied <| String.ofList <|
      b.before ++ head ++ b.newline ++ indent ++ snippet.toList ++ tail ++ b.after

end Body

/-- Writes a statement into a method body. -/
def insertInMethod (text className methodName snippet : String) (afterLine : Option String)
    (d : Dialect) : Except PatchError TextPatch := do
  (← Body.locate text className methodName d).insert snippet afterLine

/-- Writes an import two lines below the end of the package declaration. -/
def addImport (text path : String) (d : Dialect) : Except PatchError TextPatch := do
  let importPattern ← Body.anchorPattern d (.importOf path)
  if importPattern.occursIn text.toList then return .alreadyApplied
  let packagePattern ← Body.anchorPattern d .package
  match packagePattern.find? text.toList with
  | none => throw (.importAnchorMissing path)
  | some m =>
    return .applied <| String.ofList <|
      m.before ++ m.matched ++ ['\n', '\n'] ++ (d.importStatement path).toList ++ m.after

/-- The text without the lines that hold `needle`, and the number of lines dropped.  Lines end at
line feeds. -/
def removeLines (text needle : String) : String × Nat :=
  let (dropped, kept) := (splitOn '\n' text.toList).partition (occursIn needle.toList)
  (String.ofList (['\n'].intercalate kept), dropped.length)

end AndroidFonts
