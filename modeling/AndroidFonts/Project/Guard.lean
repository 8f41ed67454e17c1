/-
# `AndroidFonts.Project.Guard` — which paths of a project may be written

A path is resolved before it is judged: the longest part of it that exists is replaced by the place
it leads to, and the names after that are kept.  The result has to lie in the project, and not in
the output of its build.
-/
import AndroidFonts.Tree.Resolve

namespace AndroidFonts

/-- A project whose files are to be written. -/
structure Guard where
  /-- The place of the project itself. -/
  root : Location
deriving Repr, DecidableEq

/-- Why a path may not be written. -/
inductive SafetyError where
  | outsideProject (path project : Location)
  | forbidden (path directory : Location)
  | unresolvable (cause : IoError)
deriving Repr, DecidableEq

namespace SafetyError

def message : SafetyError → String
  | .outsideProject path project =>
    s!"Path is outside project: {path.path.text} (project: {project.path.text})"
  | .forbidden path directory =>
    s!"Path is in generated directory: {path.path.text} (forbidden: {directory.path.text})"
  | .unresolvable cause => s!"Failed to canonicalize path: {cause.message}"

/-- What the failure comes from. -/
def causes : SafetyError → List String
  | .unresolvable cause => [cause.message]
  | _ => []

end SafetyError

namespace Guard

/-- The directories that a build fills. -/
def generatedDirectories : List Location := [["build"], ["app", "build"], [".gradle"]]

/-- The project at a path. -/
def ofRoot (t : FileTree) (root : Path) : Except SafetyError Guard :=
  match t.resolve root with
  | .ok l => .ok ⟨l⟩
  | .error cause => .error (.unresolvable cause)

/-- Resolves a path: its last names are set aside, at most so many, until it leads somewhere. -/
def resolveFrom (t : FileTree) : Nat → Path → Except IoError Location
  | 0, p => t.resolve p
  | n + 1, p =>
    if t.hasPath p then t.resolve p
    else
      match p.fileName?, p.parent? with
      | some name, some parent =>
        match resolveFrom t n parent with
        | .ok l => .ok (l ++ [name])
        | .error cause => .error cause
      | _, _ => t.resolve p

/-- The place a path leads to, or would lead to once it is made. -/
def resolve (t : FileTree) (p : Path) : Except IoError Location :=
  resolveFrom t p.pieces.length p

/-- Judges a resolved place. -/
def check (g : Guard) (l : Location) : Except SafetyError Location :=
  if !g.root.isPrefixOf l then .error (.outsideProject l g.root)
  else
    match generatedDirectories.find? fun d => (g.root ++ d).isPrefixOf l with
    | some d => .error (.forbidden l (g.root ++ d))
    | none => .ok l

/-- The place that a path leads to, if it may be written.  A relative path starts at the root of
the project. -/
def validate (g : Guard) (t : FileTree) (p : Path) : Except SafetyError Location :=
  match resolve t (g.root.path.join p.text) with
  | .ok l => g.check l
  | .error cause => .error (.unresolvable cause)

end Guard

end AndroidFonts
