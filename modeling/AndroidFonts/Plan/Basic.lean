/-
# `AndroidFonts.Plan.Basic` — link plans, and what makes one valid

A plan lists the font families to register and further patches to source files.  `LinkPlan.issues`
lists everything that is wrong with a plan, in the order of the plan; each family and each patch
contributes its own issues whatever the others hold.
-/
import AndroidFonts.Font.Family
import AndroidFonts.Font.Weight
import AndroidFonts.Source.Operation
import AndroidFonts.Tree.Error
import AndroidFonts.Tree.Path

namespace AndroidFonts

/-- A patch to one source file. -/
structure SourcePatch where
  id : String
  /-- A relative path starts at the project root. -/
  file : Path
  operation : Operation
deriving Repr, DecidableEq

/-- What a plan says about itself. -/
structure PlanInfo where
  name : String
  description : Option String
  /-- The dialect to use in place of the detected one. -/
  dialect : Option Dialect
deriving Repr, DecidableEq

structure LinkPlan where
  info : PlanInfo
  fonts : List FontFamily
  patches : List SourcePatch
deriving Repr, DecidableEq

/-- One thing wrong with a plan.  The owner is the family or patch it is wrong with. -/
inductive PlanIssue where
  | empty
  | missingField (owner : Option String) (field : String)
  /-- Nothing of the family's name can stand in a resource name. -/
  | unusableName (family : String)
  | weightOutOfRange (family file : String) (weight : Nat)
deriving Repr, DecidableEq

namespace PlanIssue

def unusableNameText : String := "family name has no characters usable in a resource name"

def message : PlanIssue → String
  | .empty => "link config contains no fonts and no patches"
  | .missingField (some owner) field => s!"'{owner}' missing required field '{field}'"
  | .missingField none field => s!"entry missing required field '{field}'"
  | .unusableName family => s!"'{family}' has invalid configuration: {unusableNameText}"
  | .weightOutOfRange family file weight =>
    s!"font '{file}' of family '{family}' has weight {weight}, expected 1..=1000"

/-- The texts of some issues, one a line. -/
def messages (issues : List PlanIssue) : String :=
  "\n".intercalate (issues.map message)

end PlanIssue

/-- Whether a text holds nothing but white space. -/
def isBlankString (s : String) : Bool := Unicode.isBlankText s.toList

namespace FontFile

def issues (family : String) (f : FontFile) : List PlanIssue :=
  (if isBlankString f.name then [.missingField (some family) "fonts.files.name"] else []) ++
    if isFontWeight f.weight then [] else [.weightOutOfRange family f.name f.weight]

end FontFile

namespace FontFamily

/-- What is wrong with a family.  Of one without a name nothing else is said. -/
def issues (f : FontFamily) : List PlanIssue :=
  if isBlankString f.family then [.missingField none "fonts.family"]
  else
    (if f.resourceId = "" then [.unusableName f.family] else []) ++
    (if f.files = [] then [.missingField (some f.family) "fonts.files"] else []) ++
    f.files.flatMap (FontFile.issues f.family)

end FontFamily

namespace Operation

/-- The fields an operation needs, with their values. -/
def required : Operation → List (String × String)
  | .insertStatement c m code _ =>
    [("operation.class", c), ("operation.method", m), ("operation.code", code)]
  | .addImport path => [("operation.path", path)]
  | .removeLines contains => [("operation.contains", contains)]

end Operation

namespace SourcePatch

def issues (p : SourcePatch) : List PlanIssue :=
  (if isBlankString p.id then [.missingField none "id"] else []) ++
  (if p.file.text = "" then [.missingField (some p.id) "file"] else []) ++
  (p.operation.required.filter fun (_, value) => isBlankString value).map fun (field, _) =>
    .missingField (some p.id) field

end SourcePatch

namespace LinkPlan

/-- Everything wrong with a plan. -/
def issues (p : LinkPlan) : List PlanIssue :=
  (if p.fonts = [] && p.patches = [] then [.empty] else []) ++
    p.fonts.flatMap FontFamily.issues ++ p.patches.flatMap SourcePatch.issues

/-- Whether a plan may be run. -/
def isValid (p : LinkPlan) : Bool := p.issues = []

end LinkPlan

/-- Why a plan could not be loaded.  The path is known if the plan came from a file. -/
inductive PlanError where
  | unreadable (path : Path) (cause : IoError)
  | notToml (path : Option Path)
  | invalid (path : Option Path) (issues : List PlanIssue)
deriving Repr, DecidableEq

namespace PlanError

def place : Option Path → String
  | some p => s!" ({p.text})"
  | none => ""

/-- What the failure comes from. -/
def cause : PlanError → String
  | .unreadable _ e => e.message
  | .notToml _ => "TOML parse error"
  | .invalid _ issues => PlanIssue.messages issues

def message (e : PlanError) : String :=
  match e with
  | .unreadable path _ => s!"failed to read link config from {path.text}: {e.cause}"
  | .notToml path => s!"failed to parse link config TOML{place path}: {e.cause}"
  | .invalid path _ => s!"invalid link config{place path}: {e.cause}"

end PlanError

end AndroidFonts
