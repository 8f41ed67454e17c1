/-
# `AndroidFonts.Link.Patching` — running patches over the files of a project

Patches are grouped by the file they resolve to, in the order in which the files first occur.  Each
file is read once, all its patches run on the text in memory, and the file is written once if that
changed it.  Patches whose path may not be written are reported first.
-/
import AndroidFonts.Link.Outcome
import AndroidFonts.Plan.Basic

namespace AndroidFonts

namespace Patching

/-- Adds a patch to the group of its file, or a new group at the end. -/
def addToGroup (l : Location) (p : SourcePatch) :
    List (Location × List SourcePatch) → List (Location × List SourcePatch)
  | [] => [(l, [p])]
  | (k, ps) :: groups =>
    if k = l then (k, ps ++ [p]) :: groups else (k, ps) :: addToGroup l p groups

/-- The patches of each file, files in the order in which they first occur. -/
def groups (resolved : List (Location × SourcePatch)) : List (Location × List SourcePatch) :=
  resolved.foldl (fun groups (l, p) => addToGroup l p groups) []

/-- The patches whose path may be written, with the place it leads to. -/
def accepted (t : FileTree) (g : Guard) (patches : List SourcePatch) :
    List (Location × SourcePatch) :=
  patches.filterMap fun p => (g.validate t p.file).toOption.map fun l => (l, p)

/-- The results of the patches whose path may not be written. -/
def refused (t : FileTree) (g : Guard) (patches : List SourcePatch) : List StepResult :=
  patches.filterMap fun p =>
    match g.validate t p.file with
    | .ok _ => none
    | .error cause => some ⟨p.id, .error (.safety cause)⟩

/-- The outcome of one operation on a file. -/
def outcomeOf (file : Path) : Except PatchError TextPatch → StepOutcome
  | .ok (.applied _) => .applied file
  | .ok .alreadyApplied => .alreadyApplied file
  | .error e => if e.isSkip then .skipped file e.message else .failed file e.message

/-- The edit that some patches make to a file with a text. -/
def planEdit (file : Path) (found : String) (patches : List SourcePatch) (d : Dialect) :
    FileEdit :=
  ⟨file, some found, Operation.finalText d found (patches.map (·.operation))⟩

/-- The outcome of each of some patches to a file with a text. -/
def planOutcomes (file : Path) (found : String) (patches : List SourcePatch) (d : Dialect) :
    List (String × StepOutcome) :=
  (patches.map (·.id)).zip
    ((Operation.outcomes d found (patches.map (·.operation))).map (outcomeOf file))

/-- What becomes of an outcome when its file could not be written. -/
def unwritten (reason : String) : StepOutcome → StepOutcome
  | .applied file => .failed file reason
  | other => other

/-- Runs the patches of one file. -/
def runFile (d : Dialect) (mode : RunMode) (t : FileTree) (l : Location)
    (patches : List SourcePatch) : List StepResult × FileTree :=
  match t.readText l.path with
  | .error cause => (patches.map fun p => ⟨p.id, .error (.io l.path cause)⟩, t)
  | .ok found =>
    let edit := planEdit l.path found patches d
    let outcomes := planOutcomes l.path found patches d
    let results (f : StepOutcome → StepOutcome) : List StepResult :=
      outcomes.map fun (id, outcome) => ⟨id, .ok (f outcome)⟩
    if mode = .check || edit.isNoop then (results id, t)
    else
      match edit.apply t with
      | (.ok _, t) => (results id, t)
      | (.error e, t) => (results (unwritten e.message), t)

/-- Runs the patches of some files, one file after the other. -/
def runGroups (d : Dialect) (mode : RunMode) :
    FileTree → List (Location × List SourcePatch) → List StepResult × FileTree
  | t, [] => ([], t)
  | t, (l, patches) :: rest =>
    let (results, t) := runFile d mode t l patches
    let (more, t) := runGroups d mode t rest
    (results ++ more, t)

/-- Runs patches over a project. -/
def run (g : Guard) (d : Dialect) (mode : RunMode) (t : FileTree) (patches : List SourcePatch) :
    List StepResult × FileTree :=
  let (results, t') := runGroups d mode t (groups (accepted t g patches))
  (refused t g patches ++ results, t')

/-- The edits a run would make.  Files that cannot be read or would not change are left out. -/
def preview (g : Guard) (d : Dialect) (t : FileTree) (patches : List SourcePatch) :
    List FileEdit :=
  (groups (accepted t g patches)).filterMap fun (l, patches) =>
    match t.readText l.path with
    | .error _ => none
    | .ok found =>
      let edit := planEdit l.path found patches d
      if edit.isNoop then none else some edit

end Patching

end AndroidFonts
