/-
# `AndroidFonts.Font.Family` — font families and how an application registers them

An application registers a family by one call, which names the family as the script side knows it
and the resource that lists its files.
-/
import AndroidFonts.Font.Name
import AndroidFonts.Source.Dialect

namespace AndroidFonts

/-- One font file. -/
structure FontFile where
  name : String
  weight : Nat
  italic : Bool
deriving Repr, DecidableEq

/-- A font family with its files. -/
structure FontFamily where
  family : String
  /-- The name to make the resource name from, where it is not the family's own. -/
  id : Option String
  files : List FontFile
deriving Repr, DecidableEq

namespace FontFamily

/-- The resource name of a family. -/
def resourceId (f : FontFamily) : String :=
  normalizeName (f.id.getD f.family)

end FontFamily

namespace Registration

/-- The class that registers fonts, as it is imported. -/
def managerImport : String := "com.facebook.react.views.text.ReactFontManager"

/-- The statement that registers a family. -/
def call (family resourceId : String) (d : Dialect) : String :=
  "ReactFontManager.getInstance().addCustomFont(this, \"" ++ family ++ "\", R.font." ++
    resourceId ++ ")" ++ d.terminator

/-- The text by which the registration of a family is found again: its call up to the quote that
ends the name, so that a longer name is not taken for a shorter one. -/
def needle (family : String) : String :=
  "addCustomFont(this, \"" ++ family ++ "\""

end Registration

end AndroidFonts
