/-
# `AndroidFonts.Tree.Edit` — replacing a file that still holds what was read

An edit knows the text its new text was computed from.  Applying it compares that with the file as
it is now, and replaces the file only if they agree.  A file that already holds the new text is left
alone whatever was expected.
-/
import AndroidFonts.Tree.Write

namespace AndroidFonts

/-- A new text for a whole file. -/
structure FileEdit where
  file : Path
  /-- What the file is expected to hold; none if it is expected to be missing. -/
  before : Option String
  after : String
deriving Repr, DecidableEq

/-- Why an edit was not applied. -/
inductive EditError where
  | changed (file : Path)
  | unexpectedFile (file : Path)
  | io (path : Path) (cause : IoError)
deriving Repr, DecidableEq

namespace EditError

def message : EditError → String
  | .changed file => s!"{file.text} changed on disk since it was read"
  | .unexpectedFile file => s!"{file.text} already exists"
  | .io path cause => s!"File I/O error on {path.text}: {cause.message}"

end EditError

/-- What applying an edit did. -/
inductive EditOutcome where
  | applied (bytesWritten : Nat)
  /-- The file held the new text before. -/
  | alreadyApplied
deriving Repr, DecidableEq

namespace FileEdit

/-- Whether the expected text is the new text. -/
def isNoop (e : FileEdit) : Bool := e.before = some e.after

/-- The text of a file, none if there is no file. -/
def currentText (t : FileTree) (p : Path) : Except EditError (Option String) :=
  match t.readText p with
  | .ok s => .ok (some s)
  | .error cause => if cause.isNotFound then .ok none else .error (.io p cause)

/-- Puts a file with a text at a path, with no regard to what is there. -/
def write (t : FileTree) (p : Path) (text : String) : Except EditError Unit × FileTree :=
  match t.replaceFile p text with
  | .ok t => (.ok (), t)
  | .error cause => (.error (.io p cause), t)

/-- Makes the directories above a path. -/
def makeParents (t : FileTree) (p : Path) : Except EditError Unit × FileTree :=
  match p.parent? with
  | none => (.ok (), t)
  | some parent =>
    match t.makeDirectories parent with
    | (.ok (), t) => (.ok (), t)
    | (.error cause, t) => (.error (.io parent cause), t)

/-- Puts the new text in place, with the directories it needs. -/
def install (e : FileEdit) (t : FileTree) : Except EditError EditOutcome × FileTree :=
  match makeParents t e.file with
  | (.error err, t) => (.error err, t)
  | (.ok (), t) =>
    match write t e.file e.after with
    | (.ok (), t) => (.ok (.applied (Text.byteLength e.after.toList)), t)
    | (.error err, t) => (.error err, t)

/-- Applies an edit. -/
def apply (e : FileEdit) (t : FileTree) : Except EditError EditOutcome × FileTree :=
  match currentText t e.file with
  | .error err => (.error err, t)
  | .ok current =>
    if current = some e.after then (.ok .alreadyApplied, t)
    else
      match e.before, current with
      | some expected, some found =>
        if expected = found then e.install t else (.error (.changed e.file), t)
      | some _, none => (.error (.io e.file .disappeared), t)
      | none, some _ => (.error (.unexpectedFile e.file), t)
      | none, none => e.install t

end FileEdit

end AndroidFonts
