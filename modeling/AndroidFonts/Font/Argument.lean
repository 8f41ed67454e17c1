/-
# `AndroidFonts.Font.Argument` — font files written as one word

A font file is written `name:weight`, or `name:weight:style` with the style `normal` or `italic`.
The name is not empty and holds no colon, and the weight is a decimal number from 1 to 1000, so that
a text is read in at most one way.
-/
import AndroidFonts.Font.Family
import AndroidFonts.Font.Weight
import AndroidFonts.Text.Numeral

namespace AndroidFonts

/-- Why a text names no font file. -/
inductive FontArgumentError where
  /-- There is no name or no weight. -/
  | incomplete (text : String)
  | tooManyFields (text : String)
  | invalidWeight (field : String)
  | weightOutOfRange (weight : Nat)
  | invalidStyle (field : String)
deriving Repr, DecidableEq

namespace FontArgumentError

def message : FontArgumentError → String
  | .incomplete text => s!"expected name:weight[:italic], got '{text}'"
  | .tooManyFields text => s!"too many ':' separated fields in '{text}'"
  | .invalidWeight field => s!"invalid weight '{field}'"
  | .weightOutOfRange weight => s!"weight {weight} out of range, expected 1..=1000"
  | .invalidStyle field => s!"invalid style '{field}', expected 'italic'"

end FontArgumentError

namespace FontFile

/-- Whether a style field stands for an italic font; a missing one does not. -/
def readItalic : Option (List Char) → Except FontArgumentError Bool
  | none => .ok false
  | some field =>
    if field = "normal".toList then .ok false
    else if field = "italic".toList then .ok true
    else .error (.invalidStyle (String.ofList field))

/-- The font file of three fields. -/
def ofFields (name weight : List Char) (style : Option (List Char)) :
    Except FontArgumentError FontFile := do
  let some n := Text.readNat16? weight | throw (.invalidWeight (String.ofList weight))
  if !isFontWeight n then throw (.weightOutOfRange n)
  return ⟨String.ofList name, n, ← readItalic style⟩

/-- The font file a word names. -/
def ofArgument (text : String) : Except FontArgumentError FontFile :=
  match Text.splitOn ':' text.toList with
  | [] :: _ => .error (.incomplete text)
  | [name, weight] => ofFields name weight none
  | [name, weight, style] => ofFields name weight (some style)
  | _ :: _ :: _ :: _ => .error (.tooManyFields text)
  | _ => .error (.incomplete text)

/-- The word that names a font file. -/
def toArgument (f : FontFile) : String :=
  f.name ++ ":" ++ toString f.weight ++ if f.italic then ":italic" else ""

end FontFile

end AndroidFonts
