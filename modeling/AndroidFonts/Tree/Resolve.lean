/-
# `AndroidFonts.Tree.Resolve` — from paths to places

A path is followed name by name.  Each name needs a directory to be looked up in; `..` goes up, `.`
and a slash at the end ask for a directory.  Where a name is a symbolic link, its target is followed
in its stead, so a place that a path leads to is never reached through a link
(`AndroidFonts.FileTree.resolve`).  The number of links in a row is bounded, which also ends loops.

A path can be resolved name by name whatever its length, but the system takes only paths of a
bounded length at once (`AndroidFonts.FileTree.locate`).
-/
import AndroidFonts.Text.Offset
import AndroidFonts.Tree.Basic
import AndroidFonts.Tree.Error

namespace AndroidFonts

namespace Path

/-- What the number of bytes of a path that the system takes is less than. -/
def sizeLimit : Nat := 4096

/-- Whether a path is too long for the system. -/
def isTooLong (p : Path) : Bool := sizeLimit ≤ Text.byteLength p.text.toList

/-- The names to look up one after the other; a slash at the end asks for the directory itself. -/
def steps (p : Path) : List String :=
  let names := (p.pieces.filter (· ≠ [])).map String.ofList
  if p.text.toList.getLast? = some '/' then names ++ ["."] else names

end Path

namespace FileTree

/-- The longest name in bytes. -/
def maxName : Nat := 255

/-- The number of links that may be followed for one path. -/
def maxLinks : Nat := 40

/-- Where following names ends: at a place, or at a link in a directory with names left over. -/
inductive Progress where
  | arrived (l : Location)
  | linked (directory : Location) (target : Path) (rest : List String)
deriving Repr, DecidableEq

/-- Follows names from a place up to the first link. -/
def advance (t : FileTree) (l : Location) : List String → Except IoError Progress
  | [] => .ok (.arrived l)
  | name :: rest =>
    if t.get? l ≠ some .directory then .error .notDirectory
    else if name = "." then advance t l rest
    else if name = ".." then advance t l.dropLast rest
    else if maxName < Text.byteLength name.toList then .error .nameTooLong
    else
      match t.get? (l ++ [name]) with
      | none => .error .notFound
      | some (.link target) => .ok (.linked l target rest)
      | some _ => advance t (l ++ [name]) rest

/-- Follows names from a place through at most so many links. -/
def follow (t : FileTree) : Nat → Location → List String → Except IoError Location
  | links, l, names =>
    match advance t l names with
    | .error e => .error e
    | .ok (.arrived l) => .ok l
    | .ok (.linked directory target rest) =>
      match links with
      | 0 => .error .tooManyLinks
      | links + 1 =>
        follow t links (if target.isAbsolute then [] else directory) (target.steps ++ rest)

/-- The place a path starts from. -/
def startOf (t : FileTree) (p : Path) : Location := if p.isAbsolute then [] else t.current

/-- The place of what a path leads to, links followed. -/
def resolve (t : FileTree) (p : Path) : Except IoError Location :=
  if '\x00' ∈ p.text.toList then .error .nulInPath
  else if p.text = "" then .error .notFound
  else t.follow maxLinks (t.startOf p) p.steps

/-- The place of what a path leads to, if the system takes the path. -/
def locate (t : FileTree) (p : Path) : Except IoError Location :=
  if '\x00' ∈ p.text.toList then .error .nulInPath
  else if p.isTooLong then .error .nameTooLong
  else t.resolve p

/-- Whether a path leads to something. -/
def hasPath (t : FileTree) (p : Path) : Bool := (t.locate p).toOption.isSome

/-- Whether a path leads to a directory. -/
def isDirectory (t : FileTree) (p : Path) : Bool :=
  match t.locate p with
  | .ok l => t.get? l = some .directory
  | .error _ => false

/-- The text of the file a path leads to. -/
def readText (t : FileTree) (p : Path) : Except IoError String := do
  let l ← t.locate p
  match t.get? l with
  | some (.file (.text s)) => return s
  | some (.file (.binary _)) => throw .notText
  | some .directory => throw .isDirectory
  | _ => throw .notFound

end FileTree

end AndroidFonts
