/-
# `AndroidFonts.Plan.Load` — plans in files
-/
import AndroidFonts.Plan.Toml
import AndroidFonts.Tree.Resolve

namespace AndroidFonts

/-- The plan a file holds. -/
def LinkPlan.load (t : FileTree) (path : Path) : Except PlanError LinkPlan :=
  match t.readText path with
  | .ok text => ofToml text (some path)
  | .error cause => .error (.unreadable path cause)

end AndroidFonts
