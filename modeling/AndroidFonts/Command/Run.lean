/-
# `AndroidFonts.Command.Run` — the program as a function

A run takes a file system and arguments to what is printed, the exit code, and the file system
afterwards.  Exit code 1 says that the run or one of its steps failed, 2 that the arguments made no
sense.
-/
import AndroidFonts.Command.Invocation
import AndroidFonts.Command.Report
import AndroidFonts.Descriptor.Json
import AndroidFonts.Diff.Script
import AndroidFonts.Link.Linker
import AndroidFonts.Plan.Load

namespace AndroidFonts.Command

/-- The name and version of the program. -/
def versionText : String := "font-linker 0.1.0"

/-- How the program is used. -/
def helpText : String :=
  "Link custom fonts into React Native Android projects\n\n" ++
  "Usage: font-linker <COMMAND>\n\n" ++
  "Commands:\n" ++
  "  link -c <CONFIG> [-p <PROJECT>] [-n] [-d]\n" ++
  "  unlink -f <FAMILIES>... [-p <PROJECT>] [--dialect <DIALECT>] [-n]\n" ++
  "  status -c <CONFIG> [-p <PROJECT>]\n" ++
  "  descriptor <FONTS>... [--json]\n" ++
  "  weight <WEIGHT>\n"

namespace Fatal

def ofPlan (e : PlanError) : Fatal := ⟨e.message, [e.cause]⟩

def ofLink (e : LinkError) : Fatal := ⟨e.message, e.causes⟩

/-- A project that could not be opened. -/
def ofProject (project : Path) (e : LinkError) : Fatal :=
  ⟨s!"cannot open project {project.text}", e.message :: e.causes⟩

end Fatal

/-- What is printed about a project that is open. -/
def describeProject (k : Linker) : List Chunk :=
  [.line s!"Project: {k.root.text}", .line s!"Dialect: {k.dialect.name}", .blank]

/-- An edit in print, with the lines it changes. -/
def describeEdit (e : FileEdit) : List Chunk :=
  [.blank, .line s!"--- {e.file.text} (original)", .line s!"+++ {e.file.text} (linked)",
    .out (Diff.render (Diff.script (e.before.getD "") e.after))]

/-- What is printed before the steps. -/
def announce (mode : RunMode) : List Chunk :=
  if mode = .check then [.line "[DRY RUN - no files will be modified]"] else []

/-- What comes of the steps of a run. -/
def finish (mode : RunMode) (before : List Chunk)
    (r : Except LinkError (List StepResult) × FileTree) : RunReport × FileTree :=
  match r with
  | (.ok results, t) => ((reportRun mode results).after before, t)
  | (.error e, t) => ((Fatal.ofLink e).report.after before, t)

def runLink (t : FileTree) (project plan : Path) (mode : RunMode) (showDiff : Bool) :
    RunReport × FileTree :=
  match LinkPlan.load t plan with
  | .error e => ((Fatal.ofPlan e).report, t)
  | .ok p =>
    match Linker.ofRoot t project p.info.dialect with
    | .error e => ((Fatal.ofProject project e).report, t)
    | .ok k =>
      let opened := describeProject k
      if showDiff then
        match k.preview t p with
        | .error e => ((Fatal.ofLink e).report.after opened, t)
        | .ok edits =>
          finish mode (opened ++ edits.flatMap describeEdit ++ [.blank] ++ announce mode)
            (k.link mode t p)
      else finish mode (opened ++ announce mode) (k.link mode t p)

def runUnlink (t : FileTree) (project : Path) (families : List String) (dialect : Option Dialect)
    (mode : RunMode) : RunReport × FileTree :=
  match Linker.ofRoot t project dialect with
  | .error e => ((Fatal.ofProject project e).report, t)
  | .ok k => finish mode (describeProject k ++ announce mode) (k.unlink mode t families)

/-- A status report only reads. -/
def runStatus (t : FileTree) (project plan : Path) : RunReport :=
  match LinkPlan.load t plan with
  | .error e => (Fatal.ofPlan e).report
  | .ok p =>
    match Linker.ofRoot t project p.info.dialect with
    | .error e => (Fatal.ofProject project e).report
    | .ok k =>
      let name := if p.info.name = "" then [] else [.line s!"Plan: {p.info.name}"]
      let head := describeProject k ++ [.line "Link Status Report"] ++ name ++ [.blank]
      match (k.link .check t p).1 with
      | .error e => (Fatal.ofLink e).report.after head
      | .ok results => ⟨0, head ++ reportStatus results⟩

/-- A run that only prints. -/
def printed (chunk : Chunk) : RunReport := ⟨0, [chunk]⟩

/-- What is printed of a descriptor. -/
def describeDescriptor (fonts : List FontFile) (asJson : Bool) : Chunk :=
  if asJson then .line (Descriptor.build fonts).entriesJson else .out (Descriptor.build fonts).toXml

/-- Does what is asked. -/
def Invocation.run (t : FileTree) : Invocation → RunReport × FileTree
  | .help => (printed (.out helpText), t)
  | .version => (printed (.line versionText), t)
  | .link project plan mode showDiff => runLink t project plan mode showDiff
  | .unlink project families dialect mode => runUnlink t project families dialect mode
  | .status project plan => (runStatus t project plan, t)
  | .descriptor fonts asJson => (printed (describeDescriptor fonts asJson), t)
  | .weight w => (printed (.line (toString (fallbackWeight w))), t)

/-- The end of a program whose arguments make no sense. -/
def refuse (e : UsageError) : RunReport := ⟨2, [.err e.plainReport]⟩

/-- Runs the program on arguments. -/
def run (t : FileTree) (args : List String) : RunReport × FileTree :=
  match Invocation.ofArguments args with
  | .ok i => i.run t
  | .error e => (refuse e, t)

end AndroidFonts.Command
