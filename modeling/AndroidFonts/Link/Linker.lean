/-
# `AndroidFonts.Link.Linker` — linking font families into a project

A link run first brings the descriptor of every family up to date, then registers the families in
the application class, then runs the plan's own patches.  The calls keep the order of the families:
the first goes after the call of the superclass, each other after the one before it.
-/
import AndroidFonts.Link.Patching

namespace AndroidFonts

/-- A project that is open for linking. -/
structure Linker where
  guard : Guard
  dialect : Dialect
deriving Repr, DecidableEq

namespace Linker

/-- The method that registers fonts. -/
def registerMethod : String := "onCreate"

/-- The root of the project as a path. -/
def root (k : Linker) : Path := k.guard.root.path

/-- Opens the project at a path; the dialect is detected unless it is given. -/
def ofRoot (t : FileTree) (root : Path) (dialect : Option Dialect) : Except LinkError Linker :=
  match Guard.ofRoot t root with
  | .error cause => .error (.safety cause)
  | .ok g =>
    match dialect with
    | some d => .ok ⟨g, d⟩
    | none =>
      match Layout.detectDialect t g.root.path with
      | .ok d => .ok ⟨g, d⟩
      | .error cause => .error (.project cause)

/-- The place a path leads to, if it may be written. -/
def validate (k : Linker) (t : FileTree) (p : Path) : Except LinkError Path :=
  match k.guard.validate t p with
  | .ok l => .ok l.path
  | .error cause => .error (.safety cause)

/-- The edit that brings the descriptor of a family up to date.  What it lists besides the family's
files stays. -/
def descriptorEdit (k : Linker) (t : FileTree) (f : FontFamily) : Except LinkError FileEdit := do
  let path ← k.validate t (Layout.fontFamilyFile k.root f.resourceId)
  match t.readText path with
  | .ok existing =>
    match Descriptor.ofXml existing with
    | .ok d => return ⟨path, some existing, (d.merge f.files).toXml⟩
    | .error cause => throw (.descriptor path cause)
  | .error cause =>
    if cause.isNotFound then return ⟨path, none, (Descriptor.build f.files).toXml⟩
    else throw (.io path cause)

/-- The file of the application class. -/
def applicationFile (k : Linker) (t : FileTree) : Except LinkError Path :=
  match Layout.findSourceFile t k.root Layout.applicationClass k.dialect with
  | .ok p => k.validate t p
  | .error cause => .error (.project cause)

/-- The patches that register families in a file, the first of them after a given line. -/
def registrations (d : Dialect) (file : Path) : String → List FontFamily → List SourcePatch
  | _, [] => []
  | anchor, f :: fs =>
    let code := Registration.call f.family f.resourceId d
    { id := "register-font-" ++ f.resourceId
      file := file
      operation := .insertStatement Layout.applicationClass registerMethod code (some anchor) } ::
    registrations d file code fs

/-- The patches that register families in the application class. -/
def fontPatches (k : Linker) (t : FileTree) (families : List FontFamily) :
    Except LinkError (List SourcePatch) :=
  if families = [] then .ok []
  else do
    let file ← k.applicationFile t
    return { id := "import-react-font-manager"
             file := file
             operation := .addImport Registration.managerImport } ::
      registrations k.dialect file ("super." ++ registerMethod ++ "()") families

/-- The patches that remove the registrations of families.  Descriptors stay. -/
def unlinkPatches (k : Linker) (t : FileTree) (families : List String) :
    Except LinkError (List SourcePatch) :=
  if families = [] then .ok []
  else do
    let file ← k.applicationFile t
    return families.map fun family =>
      { id := "unregister-font-" ++ normalizeName family
        file := file
        operation := .removeLines (Registration.needle family) }

/-- Makes one edit as a step of a run. -/
def runEdit (mode : RunMode) (t : FileTree) (e : FileEdit) :
    Except StepError StepOutcome × FileTree :=
  if e.isNoop then (.ok (.alreadyApplied e.file), t)
  else if mode = .check then (.ok (.applied e.file), t)
  else
    match e.apply t with
    | (.ok (.applied _), t) => (.ok (.applied e.file), t)
    | (.ok .alreadyApplied, t) => (.ok (.alreadyApplied e.file), t)
    | (.error cause, t) => (.error (.edit cause), t)

/-- Plans and makes an edit for each of some things, one after the other, until one cannot be
planned. -/
def runEdits {α : Type} (plan : FileTree → α → Except LinkError FileEdit) (id : α → String)
    (mode : RunMode) : FileTree → List α → Except LinkError (List StepResult) × FileTree
  | t, [] => (.ok [], t)
  | t, a :: rest =>
    match plan t a with
    | .error e => (.error e, t)
    | .ok edit =>
      let (result, t) := runEdit mode t edit
      match runEdits plan id mode t rest with
      | (.error e, t) => (.error e, t)
      | (.ok results, t) => (.ok (⟨id a, result⟩ :: results), t)

/-- Brings the descriptors of families up to date. -/
def linkDescriptors (k : Linker) (mode : RunMode) (t : FileTree) (families : List FontFamily) :
    Except LinkError (List StepResult) × FileTree :=
  runEdits k.descriptorEdit (fun f => "font-family-" ++ f.resourceId) mode t families

/-- Runs a plan. -/
def link (k : Linker) (mode : RunMode) (t : FileTree) (plan : LinkPlan) :
    Except LinkError (List StepResult) × FileTree :=
  match k.linkDescriptors mode t plan.fonts with
  | (.error e, t) => (.error e, t)
  | (.ok results, t) =>
    match k.fontPatches t plan.fonts with
    | .error e => (.error e, t)
    | .ok patches =>
      let (more, t) := Patching.run k.guard k.dialect mode t (patches ++ plan.patches)
      (.ok (results ++ more), t)

/-- Removes the registrations of families. -/
def unlink (k : Linker) (mode : RunMode) (t : FileTree) (families : List String) :
    Except LinkError (List StepResult) × FileTree :=
  match k.unlinkPatches t families with
  | .error e => (.error e, t)
  | .ok patches =>
    let (results, t) := Patching.run k.guard k.dialect mode t patches
    (.ok results, t)

/-- The edits a run of a plan would make, each computed from the files as they are. -/
def preview (k : Linker) (t : FileTree) (plan : LinkPlan) : Except LinkError (List FileEdit) := do
  let edits ← plan.fonts.mapM (k.descriptorEdit t)
  let patches ← k.fontPatches t plan.fonts
  return edits.filter (fun e => !e.isNoop) ++
    Patching.preview k.guard k.dialect t (patches ++ plan.patches)

end Linker

end AndroidFonts
