/-
# `AndroidFonts.Link.Outcome` — what became of the steps of a run

Every step has an outcome of its own.  A step that fails does not stop the others; only a step that
cannot be planned at all ends the run (`LinkError`).
-/
import AndroidFonts.Descriptor.Xml
import AndroidFonts.Project.Guard
import AndroidFonts.Project.Layout
import AndroidFonts.Tree.Edit

namespace AndroidFonts

/-- Whether a run writes, or only says what it would do. -/
inductive RunMode where
  | write
  | check
deriving Repr, DecidableEq

/-- What a step that was evaluated came to. -/
inductive StepOutcome where
  | applied (file : Path)
  | alreadyApplied (file : Path)
  /-- There was nothing to attach the change to. -/
  | skipped (file : Path) (reason : String)
  | failed (file : Path) (reason : String)
deriving Repr, DecidableEq

namespace StepOutcome

def file : StepOutcome → Path
  | .applied f => f
  | .alreadyApplied f => f
  | .skipped f _ => f
  | .failed f _ => f

/-- The outcome in words. -/
def describe : StepOutcome → String
  | .applied f => s!"Applied patch to {f.text}"
  | .alreadyApplied f => s!"Already applied to {f.text}"
  | .skipped f reason => s!"Skipped on {f.text}: {reason}"
  | .failed f reason => s!"Failed on {f.text}: {reason}"

end StepOutcome

/-- Why a step could not be evaluated. -/
inductive StepError where
  | io (path : Path) (cause : IoError)
  | edit (cause : EditError)
  | safety (cause : SafetyError)
deriving Repr, DecidableEq

namespace StepError

def message : StepError → String
  | .io path cause => s!"I/O error on {path.text}: {cause.message}"
  | .edit cause => s!"edit error: {cause.message}"
  | .safety cause => s!"unsafe target: {cause.message}"

end StepError

/-- One step of a run. -/
structure StepResult where
  id : String
  result : Except StepError StepOutcome

/-- Why a run ended before its steps were evaluated. -/
inductive LinkError where
  | safety (cause : SafetyError)
  | project (cause : ProjectError)
  | io (path : Path) (cause : IoError)
  | descriptor (path : Path) (cause : DescriptorError)
deriving Repr, DecidableEq

namespace LinkError

def message : LinkError → String
  | .safety cause => cause.message
  | .project cause => cause.message
  | .io path cause => s!"failed to read {path.text}: {cause.message}"
  | .descriptor path cause =>
    s!"existing font-family XML at {path.text} is malformed: {cause.message}"

/-- What the failure comes from, the nearest cause first. -/
def causes : LinkError → List String
  | .safety cause => cause.causes
  | .project _ => []
  | .io _ cause => [cause.message]
  | .descriptor _ cause => [cause.message]

end LinkError

end AndroidFonts
