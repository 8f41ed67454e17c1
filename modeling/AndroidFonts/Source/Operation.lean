/-
# `AndroidFonts.Source.Operation` — changes as data, and runs of them

A run applies operations one after the other.  An operation that fails, or that finds its work
done, leaves the text to the next one as it was.
-/
import AndroidFonts.Source.Patch

namespace AndroidFonts

/-- A change to a source text. -/
inductive Operation where
  | insertStatement (className methodName code : String) (afterLine : Option String)
  | addImport (path : String)
  | removeLines (contains : String)
deriving Repr, DecidableEq

namespace Operation

/-- Applies one operation to a text. -/
def run (text : String) (d : Dialect) : Operation → Except PatchError TextPatch
  | .insertStatement c m code afterLine => insertInMethod text c m code afterLine d
  | .addImport path => AndroidFonts.addImport text path d
  | .removeLines contains =>
    match AndroidFonts.removeLines text contains with
    | (_, 0) => .ok .alreadyApplied
    | (patched, _ + 1) => .ok (.applied patched)

/-- The text that the next operation sees. -/
def textAfter (text : String) : Except PatchError TextPatch → String
  | .ok patch => patch.textOr text
  | .error _ => text

/-- What each of some operations does to the text its predecessors left. -/
def outcomes (d : Dialect) : String → List Operation → List (Except PatchError TextPatch)
  | _, [] => []
  | text, op :: ops =>
    let outcome := op.run text d
    outcome :: outcomes d (textAfter text outcome) ops

/-- The text after some operations. -/
def finalText (d : Dialect) (text : String) (ops : List Operation) : String :=
  ops.foldl (fun text op => textAfter text (op.run text d)) text

end Operation

end AndroidFonts
