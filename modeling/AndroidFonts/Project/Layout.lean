/-
# `AndroidFonts.Project.Layout` — where an Android project keeps its files

Sources lie below two directories, searched in turn; the first file of the wanted name in the order
of the walk is taken.  A project is a Kotlin project if its application class is a Kotlin file.
-/
import AndroidFonts.Source.Dialect
import AndroidFonts.Tree.Resolve

namespace AndroidFonts

inductive ProjectError where
  | notAndroidProject (root : Path)
  | sourceNotFound (file : String) (root : Path)
deriving Repr, DecidableEq

namespace ProjectError

def message : ProjectError → String
  | .notAndroidProject root => s!"not an Android project: no app/src/main under {root.text}"
  | .sourceNotFound file root => s!"no {file} found under {root.text}"

end ProjectError

namespace Layout

/-- The directories that hold sources, in the order they are searched. -/
def sourceDirectories : List String := ["app/src/main/java", "app/src/main/kotlin"]

/-- The directory of fonts and font families. -/
def fontDirectory : String := "app/src/main/res/font"

/-- The class whose creation registers fonts. -/
def applicationClass : String := "MainApplication"

/-- Fails unless there is an Android project at a path. -/
def ensureProject (t : FileTree) (root : Path) : Except ProjectError Unit :=
  if t.isDirectory (root.join "app/src/main") then .ok () else .error (.notAndroidProject root)

/-- The first file of a name below a directory, as a path from there on. -/
def findBelow (t : FileTree) (directory : Path) (file : String) : Option Path :=
  match t.locate directory with
  | .error _ => none
  | .ok l =>
    if t.get? l = some .directory then
      ((t.walk l).find? fun names => names.getLast? = some file).map fun names =>
        names.foldl Path.join directory
    else none

/-- The first source file of a name. -/
def findInSources (t : FileTree) (root : Path) (file : String) : Option Path :=
  sourceDirectories.findSome? fun d => findBelow t (root.join d) file

/-- The dialect a project is written in. -/
def detectDialect (t : FileTree) (root : Path) : Except ProjectError Dialect := do
  ensureProject t root
  match findInSources t root (applicationClass ++ "." ++ Dialect.kotlin.extension) with
  | some _ => return .kotlin
  | none => return .java

/-- The source file of a class. -/
def findSourceFile (t : FileTree) (root : Path) (className : String) (d : Dialect) :
    Except ProjectError Path := do
  ensureProject t root
  let file := className ++ "." ++ d.extension
  match findInSources t root file with
  | some p => return p
  | none => throw (.sourceNotFound file root)

/-- The file that describes a font family. -/
def fontFamilyFile (root : Path) (resourceId : String) : Path :=
  (root.join fontDirectory).join (resourceId ++ ".xml")

end Layout

end AndroidFonts
