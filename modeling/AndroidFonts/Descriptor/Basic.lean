/-
# `AndroidFonts.Descriptor.Basic` — what a font family consists of

A descriptor lists the fonts of a family, at most one for each style and weight.  Adding a font for
a style and weight that is there already replaces the old one in its place.
-/
import AndroidFonts.Font.Family

namespace AndroidFonts

inductive FontStyle where
  | normal
  | italic
deriving Repr, DecidableEq

namespace FontStyle

def name : FontStyle → String
  | .normal => "normal"
  | .italic => "italic"

def ofName? : String → Option FontStyle
  | "normal" => some .normal
  | "italic" => some .italic
  | _ => none

end FontStyle

/-- One font of a family. -/
structure FontEntry where
  style : FontStyle
  weight : Nat
  /-- The resource that holds the font. -/
  fontRef : String
deriving Repr, DecidableEq

namespace FontEntry

/-- What tells the fonts of a family apart. -/
def key (e : FontEntry) : FontStyle × Nat := (e.style, e.weight)

def ofFile (f : FontFile) : FontEntry :=
  { style := if f.italic then .italic else .normal
    weight := f.weight
    fontRef := fontResourceRef f.name }

end FontEntry

/-- A font family as resource tooling reads it. -/
structure Descriptor where
  /-- The namespace of the attributes. -/
  namespaceUri : String
  entries : List FontEntry
deriving Repr, DecidableEq

namespace Descriptor

/-- The namespace that resource tooling gives to an application's own attributes. -/
def resAutoUri : String := "http://schemas.android.com/apk/res-auto"

def empty : Descriptor := ⟨resAutoUri, []⟩

/-- Puts an entry in the place of the first one with its key, or at the end. -/
def place (e : FontEntry) : List FontEntry → List FontEntry
  | [] => [e]
  | x :: xs => if x.key = e.key then e :: xs else x :: place e xs

def upsert (d : Descriptor) (e : FontEntry) : Descriptor :=
  { d with entries := place e d.entries }

/-- Adds font files in order. -/
def merge (d : Descriptor) (files : List FontFile) : Descriptor :=
  files.foldl (fun d f => d.upsert (.ofFile f)) d

/-- The descriptor of some font files. -/
def build (files : List FontFile) : Descriptor := empty.merge files

end Descriptor

end AndroidFonts
