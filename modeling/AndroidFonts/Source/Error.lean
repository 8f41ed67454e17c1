/-
# `AndroidFonts.Source.Error` — why a source text could not be patched
-/
namespace AndroidFonts

/-- The reason a patch does not apply to a text. -/
inductive PatchError where
  | classNotFound (className : String)
  | methodNotFound (className methodName : String)
  /-- The method has no body whose braces are balanced. -/
  | bodyNotFound (className methodName : String)
  | anchorLineNotFound (line : String)
  /-- There is no package declaration to write an import after. -/
  | importAnchorMissing (path : String)
  | invalidPattern (text : String)
deriving Repr, DecidableEq

namespace PatchError

def message : PatchError → String
  | .classNotFound c => s!"class {c} not found"
  | .methodNotFound c m => s!"method {m} not found in class {c}"
  | .bodyNotFound c m => s!"could not find closing brace for method {m} in class {c}"
  | .anchorLineNotFound line => "line \"" ++ line ++ "\" not found in method body"
  | .importAnchorMissing path => s!"no package declaration to attach import {path} to"
  | .invalidPattern text => s!"invalid anchor pattern: {text}"

/-- Whether there was merely nothing to attach the patch to, which is no failure. -/
def isSkip : PatchError → Bool
  | .importAnchorMissing _ => true
  | _ => false

end PatchError

end AndroidFonts
