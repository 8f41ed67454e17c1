/-
# `AndroidFonts.Disk` — the file system on disk as a tree, and back

Only the part that a request is about is read: the current directory, every place that the paths of
the request pass, and what lies below the project.  Only what differs between two trees is written.
-/
import AndroidFonts.Command.Run

namespace AndroidFonts.Disk

/-- A place as an entry of its directory. -/
def entryAt (l : Location) : IO.FS.DirEntry :=
  { root := (Location.path l.dropLast).text, fileName := l.getLast?.getD "" }

/-- The place of an absolute path. -/
def placeOf (path : String) : Location := (path.splitOn "/").filter (· ≠ "")

/-- The contents that some bytes are. -/
def contentsOf (bytes : ByteArray) : Contents :=
  match String.fromUTF8? bytes with
  | some text => .text text
  | none => .binary bytes.toList

/-- What is at a place; a link is read as one to the place it leads to. -/
def nodeAt? (l : Location) : IO (Option FileNode) := do
  let path := (entryAt l).path
  try
    match (← path.symlinkMetadata).type with
    | .dir => return some .directory
    | .file => return some (.file (contentsOf (← IO.FS.readBinFile path)))
    | .symlink => return some (.link ⟨(← IO.FS.realPath path).toString⟩)
    | .other => return none
  catch _ => return none

/-- Adds what is at a place. -/
def addNode (t : FileTree) (l : Location) : IO FileTree := do
  match ← nodeAt? l with
  | some n => return if l = [] then t else t.put l n
  | none => return t

/-- Adds every place on the way to a place. -/
def addWay (t : FileTree) (l : Location) : IO FileTree :=
  (List.range l.length).foldlM (fun t n => addNode t (l.take (n + 1))) t

/-- Adds what is at a place, and what a link there leads to. -/
def addPlace (t : FileTree) (l : Location) : IO FileTree := do
  let t ← addNode t l
  match t.get? l with
  | some (.link target) => addWay t (placeOf target.text)
  | _ => return t

/-- Adds every place that a path passes; the result is the place it leads to. -/
def addPath (t : FileTree) (p : Path) : IO (FileTree × Location) :=
  p.steps.foldlM (fun (t, l) name => do
    if name = "." then return (t, l)
    if name = ".." then return (t, l.dropLast)
    let t ← addPlace t (l ++ [name])
    match t.get? (l ++ [name]) with
    | some (.link target) => return (t, placeOf target.text)
    | _ => return (t, l ++ [name])) (t, t.startOf p)

/-- Adds what is below a place, but for what is in directories that a build fills. -/
partial def addBelow (g : Guard) (t : FileTree) (l : Location) : IO FileTree := do
  if t.get? l ≠ some .directory || (g.check l).toOption.isNone then return t
  (← (entryAt l).path.readDir).foldlM (fun t e => do
    addBelow g (← addPlace t (l ++ [e.fileName])) (l ++ [e.fileName])) t

/-- The part of the file system that a project and its plan are in. -/
def read (project : Path) (plan : Option Path) : IO FileTree := do
  let current := placeOf (← IO.currentDir).toString
  let t ← addWay ⟨[], current⟩ current
  let (t, _) ← addPath t (plan.getD project)
  let (t, root) ← addPath t project
  addBelow ⟨root⟩ t root

/-- The part of the file system that arguments ask about. -/
def readFor (args : List String) : IO FileTree :=
  match Command.Invocation.ofArguments args with
  | .ok (.link project plan _ _) => read project (some plan)
  | .ok (.status project plan) => read project (some plan)
  | .ok (.unlink project _ _ _) => read project none
  | _ => return ⟨[], []⟩

/-- Puts what is at a place onto the disk.  A file is written beside its place and then moved. -/
def writeNode (l : Location) : FileNode → IO Unit
  | .directory => IO.FS.createDirAll l.path.text
  | .file (.text text) => do
    let fresh := l.path.text ++ ".new"
    IO.FS.writeFile fresh text
    IO.FS.rename fresh l.path.text
  | _ => return

/-- Puts onto the disk what differs between two trees. -/
def writeChanges (before after : FileTree) : IO Unit :=
  after.nodes.forM fun (l, n) => if before.get? l = some n then return else writeNode l n

end AndroidFonts.Disk
