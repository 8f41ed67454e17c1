/-
# `AndroidFonts.Command.Report` — the steps of a run in print

A run is printed step by step, failures on the second stream, with the number of steps of each kind
at the end.  A status report sorts the steps of a dry run instead: what is applied, what is not yet,
and what has nothing to attach to.
-/
import AndroidFonts.Command.Transcript
import AndroidFonts.Link.Outcome

namespace AndroidFonts.Command

/-- The numbers of steps by what became of them. -/
structure Tally where
  applied : Nat
  alreadyApplied : Nat
  skipped : Nat
  failed : Nat
deriving Repr, DecidableEq

namespace Tally

def zero : Tally := ⟨0, 0, 0, 0⟩

/-- The numbers with one more step. -/
def count (t : Tally) (r : StepResult) : Tally :=
  match r.result with
  | .ok (.applied _) => { t with applied := t.applied + 1 }
  | .ok (.alreadyApplied _) => { t with alreadyApplied := t.alreadyApplied + 1 }
  | .ok (.skipped ..) => { t with skipped := t.skipped + 1 }
  | .ok (.failed ..) => { t with failed := t.failed + 1 }
  | .error _ => { t with failed := t.failed + 1 }

def ofResults (results : List StepResult) : Tally := results.foldl count zero

/-- The numbers in print. -/
def summary (t : Tally) : List Chunk :=
  [.blank, .line "Summary:",
    .line s!"  {t.applied} applied",
    .line s!"  {t.alreadyApplied} already applied",
    .line s!"  {t.skipped} skipped",
    .line s!"  {t.failed} failed"]

end Tally

/-- A step in print. -/
def describeStep (mode : RunMode) (r : StepResult) : List Chunk :=
  match r.result with
  | .ok (.applied file) =>
    let verb := if mode = .check then "Would apply to" else "Applied to"
    [.line s!"✓ {r.id}: {verb} {file.text}"]
  | .ok (.alreadyApplied file) => [.line s!"⊙ {r.id}: Already applied to {file.text}"]
  | .ok (.skipped _ reason) => [.line s!"⊘ {r.id}: Skipped ({reason})"]
  | .ok (.failed file reason) =>
    [.errLine s!"✗ {r.id}: Failed - {reason}", .errLine s!"  File: {file.text}"]
  | .error e => [.errLine s!"✗ {r.id}: Error - {e.message}"]

/-- A run in print.  The program fails if a step did. -/
def reportRun (mode : RunMode) (results : List StepResult) : RunReport :=
  let tally := Tally.ofResults results
  ⟨if tally.failed = 0 then 0 else 1, results.flatMap (describeStep mode) ++ tally.summary⟩

/-! ## Status -/

/-- What the result of a dry run says about a step. -/
inductive StepStatus where
  | applied
  | notApplied (reason : String)
  | skipped (reason : String)
deriving Repr, DecidableEq

def StepStatus.ofResult (r : StepResult) : StepStatus :=
  match r.result with
  | .ok (.applied _) => .notApplied "pending"
  | .ok (.alreadyApplied _) => .applied
  | .ok (.skipped _ reason) => .skipped reason
  | .ok (.failed _ reason) => .notApplied reason
  | .error e => .notApplied e.message

/-- Some steps under a heading; nothing if there are none. -/
def statusSection (heading : String) (steps : List String) : List Chunk :=
  if steps = [] then []
  else
    .line s!"{heading} ({steps.length} steps)" ::
      steps.map (fun s => .line ("  - " ++ s)) ++ [.blank]

/-- A status report in print. -/
def reportStatus (results : List StepResult) : List Chunk :=
  let withStatus := results.map fun r => (r.id, StepStatus.ofResult r)
  let applied := withStatus.filterMap fun
    | (id, .applied) => some id
    | _ => none
  let notApplied := withStatus.filterMap fun
    | (id, .notApplied reason) => some s!"{id} ({reason})"
    | _ => none
  let skipped := withStatus.filterMap fun
    | (id, .skipped reason) => some s!"{id} ({reason})"
    | _ => none
  statusSection "✓ APPLIED" applied ++ statusSection "⊙ NOT APPLIED" notApplied ++
    statusSection "⊘ SKIPPED" skipped

end AndroidFonts.Command
