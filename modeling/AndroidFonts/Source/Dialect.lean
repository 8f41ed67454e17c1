/-
# `AndroidFonts.Source.Dialect` — the two source languages of a project

A dialect fixes how declarations look.  Each shape is a pattern with a hole for a name; the name is
escaped, so it only ever matches itself.
-/
import AndroidFonts.Pattern.Syntax

namespace AndroidFonts

/-- The language an Android project's own classes are written in. -/
inductive Dialect where
  | java
  | kotlin
deriving Repr, DecidableEq, Inhabited

/-- A word that names no dialect. -/
structure UnknownDialect where
  word : String
deriving Repr, DecidableEq

/-- The text of a pattern around the place where a name goes. -/
structure PatternTemplate where
  before : String
  after : String
deriving Repr, DecidableEq

/-- The text of the pattern for one name. -/
def PatternTemplate.fill (t : PatternTemplate) (name : String) : String :=
  t.before ++ String.ofList (Pattern.escape name.toList) ++ t.after

namespace UnknownDialect

def message (e : UnknownDialect) : String :=
  s!"unknown dialect '{e.word}' (expected java or kotlin)"

end UnknownDialect

namespace Dialect

/-- The dialect of a name, in any case of its letters. -/
def ofName (name : String) : Except UnknownDialect Dialect :=
  match name.toLower with
  | "java" => .ok .java
  | "kotlin" => .ok .kotlin
  | "kt" => .ok .kotlin
  | word => .error ⟨word⟩

def name : Dialect → String
  | .java => "java"
  | .kotlin => "kotlin"

/-- What ends a statement. -/
def terminator : Dialect → String
  | .java => ";"
  | .kotlin => ""

/-- The extension of source files, without the dot. -/
def extension : Dialect → String
  | .java => "java"
  | .kotlin => "kt"

/-- The head of a class declaration, through the opening brace.  Kotlin classes are only taken
when they extend another class. -/
def classTemplate : Dialect → PatternTemplate
  | .java => ⟨"class\\s+", "(\\s+extends\\s+\\S+)?(\\s+implements\\s+\\S+)?\\s*\\\x7b"⟩
  | .kotlin => ⟨"class\\s+", "\\s*:\\s*\\S+\\(\\)\\s*,?\\s*(\\S+\\s*)?\\\x7b"⟩

/-- The head of a method declaration, through the opening parenthesis. -/
def methodTemplate : Dialect → PatternTemplate
  | .java => ⟨"(public|protected|private)\\s+(static\\s+)?\\S+\\s+", "\\s*\\("⟩
  | .kotlin => ⟨"override\\s+fun\\s+", "\\s*\\(\\)"⟩

/-- An import of one path. -/
def importTemplate : Dialect → PatternTemplate
  | .java => ⟨"import\\s+", ";"⟩
  | .kotlin => ⟨"(?m)import\\s+", "\\s*$"⟩

/-- The text of the pattern for the package declaration. -/
def packageText : Dialect → String
  | .java => "package\\s+[\\w.]+;"
  | .kotlin => "package\\s+[\\w.]+"

/-- An import as it is written into source. -/
def importStatement (d : Dialect) (path : String) : String :=
  "import " ++ path ++ d.terminator

end Dialect

/-- A kind of declaration that text is found by. -/
inductive Anchor where
  | classHead (className : String)
  | methodHead (methodName : String)
  | importOf (path : String)
  | package
deriving Repr, DecidableEq

namespace Anchor

/-- The text of the pattern that finds a declaration in a dialect. -/
def patternText (d : Dialect) : Anchor → String
  | .classHead name => d.classTemplate.fill name
  | .methodHead name => d.methodTemplate.fill name
  | .importOf path => d.importTemplate.fill path
  | .package => d.packageText

/-- The pattern that finds a declaration in a dialect. -/
def pattern? (d : Dialect) (a : Anchor) : Option Pattern :=
  Pattern.compile? (a.patternText d).toList

end Anchor

end AndroidFonts
