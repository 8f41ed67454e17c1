/-
# `AndroidFonts.Tree.Write` — making directories and replacing files

A new entry is made in the directory that the rest of its path leads to.  Replacing a file puts a
new one in its place: a symbolic link of that name is replaced, not followed.
-/
import AndroidFonts.Tree.Resolve

namespace AndroidFonts

namespace FileTree

/-- The directory of the last name of a path, and that name; none if the path ends in no name. -/
def entryOf (t : FileTree) (p : Path) : Except IoError (Location × Option String) := do
  if '\x00' ∈ p.text.toList then throw .nulInPath
  if p.isTooLong then throw .nameTooLong
  match ((p.pieces.filter (· ≠ [])).map String.ofList).reverse with
  | [] => return ([], none)
  | name :: before =>
    let directory ← t.follow maxLinks (t.startOf p) before.reverse
    if t.get? directory ≠ some .directory then throw .notDirectory
    if name = "." || name = ".." then return (directory, none)
    if maxName < Text.byteLength name.toList then throw .nameTooLong
    return (directory, some name)

/-- Makes one directory. -/
def makeDirectory (t : FileTree) (p : Path) : Except IoError FileTree := do
  match ← t.entryOf p with
  | (_, none) => throw .alreadyExists
  | (directory, some name) =>
    let l := directory ++ [name]
    if (t.get? l).isSome then throw .alreadyExists
    return t.put l .directory

/-- Makes a directory with all that are missing above it.  The tree is also given where that
fails, since some may have been made before. -/
def makeDirectories (t : FileTree) (p : Path) : Except IoError Unit × FileTree :=
  go p.pieces.length t p
where
  /-- Each round goes one piece up the path. -/
  go : Nat → FileTree → Path → Except IoError Unit × FileTree
    | 0, t, _ => (.ok (), t)
    | n + 1, t, p =>
      if p.text = "" then (.ok (), t) else
      match t.makeDirectory p with
      | .ok t => (.ok (), t)
      | .error .notFound =>
        match p.parent? with
        | none => (.error .notFound, t)
        | some parent =>
          match go n t parent with
          | (.error e, t) => (.error e, t)
          | (.ok (), t) =>
            match t.makeDirectory p with
            | .ok t => (.ok (), t)
            | .error e => (if t.isDirectory p then .ok () else .error e, t)
      | .error e => (if t.isDirectory p then .ok () else .error e, t)

/-- A name like that of a temporary file. -/
def temporaryName : String := ".tmp000000"

/-- Whether a temporary file can be made in the directory a path leads to. -/
def takesFile (t : FileTree) (p : Path) : Except IoError Unit := do
  if p.text = "" then return
  if (p.join temporaryName).isTooLong then throw .nameTooLong
  if t.get? (← t.locate p) ≠ some .directory then throw .notDirectory

/-- Puts a file with a text at a path.  The text is first written to a temporary file in the parent
directory, which is then moved into place. -/
def replaceFile (t : FileTree) (p : Path) (text : String) : Except IoError FileTree := do
  let some parent := p.parent? | throw .noParent
  match t.takesFile parent with
  | .error e => throw (.temporaryFile e)
  | .ok () =>
    if '\x00' ∈ p.text.toList then throw .invalidArgument
    match ← t.entryOf p with
    | (_, none) => throw .busy
    | (directory, some name) =>
      let l := directory ++ [name]
      if p.text.toList.getLast? = some '/' then throw .notDirectory
      if t.get? l = some .directory then throw .isDirectory
      return t.put l (.file (.text text))

end FileTree

end AndroidFonts
