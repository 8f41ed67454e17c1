/-
# `AndroidFonts.Tree.Basic` — a file system as a finite map

A place in the file system is the list of names that leads to it from the top.  A tree maps places
to directories, files and symbolic links; a directory does not hold its children but shares their
names.  The top is always a directory.  Writing changes the map at one place (`get?_put`), so what
a change leaves alone can be read off its place.
-/
import AndroidFonts.Tree.Path

namespace AndroidFonts

/-- The names that lead to a place from the top. -/
abbrev Location := List String

/-- A place as an absolute path. -/
def Location.path (l : Location) : Path := ⟨"/" ++ "/".intercalate l⟩

/-- What a file holds. -/
inductive Contents where
  | text (s : String)
  /-- Bytes that are no UTF-8. -/
  | binary (bytes : List UInt8)
deriving Repr, DecidableEq

inductive FileNode where
  | directory
  | file (contents : Contents)
  /-- A symbolic link, with the path it holds. -/
  | link (target : Path)
deriving Repr, DecidableEq

/-- A file system and the directory that relative paths start from. -/
structure FileTree where
  nodes : List (Location × FileNode)
  current : Location
deriving Repr, DecidableEq

namespace FileTree

/-- What is at a place. -/
def get? (t : FileTree) (l : Location) : Option FileNode :=
  if l = [] then some .directory else t.nodes.lookup l

/-- Binds a place, in its old position if it is bound already. -/
def putIn (l : Location) (n : FileNode) : List (Location × FileNode) → List (Location × FileNode)
  | [] => [(l, n)]
  | (k, m) :: rest => if k = l then (l, n) :: rest else (k, m) :: putIn l n rest

/-- The tree with something at a place. -/
def put (t : FileTree) (l : Location) (n : FileNode) : FileTree :=
  { t with nodes := putIn l n t.nodes }

/-- The tree without a place and all that is below it. -/
def remove (t : FileTree) (l : Location) : FileTree :=
  { t with nodes := t.nodes.filter fun (k, _) => !l.isPrefixOf k }

/-- The tree with a directory at a place and at every place on the way to it; what is there already
stays. -/
def putDirectories (t : FileTree) (l : Location) : FileTree :=
  (List.range l.length).foldl (fun t n =>
    if (t.get? (l.take (n + 1))).isSome then t else t.put (l.take (n + 1)) .directory) t

/-- The names in a directory, in the order of their bytes. -/
def namesIn (t : FileTree) (l : Location) : List String :=
  (t.nodes.filterMap fun (k, _) => if k.dropLast = l then k.getLast? else none).mergeSort
    fun a b => !decide (b < a)

/-- The regular files below a directory, as the names that lead to them from there, in the order
of a walk that takes the names of each directory in turn.  Links are not followed. -/
def filesBelow (t : FileTree) : Nat → Location → List Location
  | 0, _ => []
  | depth + 1, l =>
    (t.namesIn l).flatMap fun name =>
      match t.get? (l ++ [name]) with
      | some (.file _) => [[name]]
      | some .directory => (filesBelow t depth (l ++ [name])).map (name :: ·)
      | _ => []

/-- All regular files below a directory.  No way down is longer than there are places. -/
def walk (t : FileTree) (l : Location) : List Location := t.filesBelow t.nodes.length l

theorem lookup_putIn (l k : Location) (n : FileNode) (nodes : List (Location × FileNode)) :
    (putIn l n nodes).lookup k = if k = l then some n else nodes.lookup k := by
  induction nodes with
  | nil =>
    by_cases h : k = l
    · simp [putIn, h]
    · simp [putIn, List.lookup_cons, h, beq_eq_false_iff_ne.2 h]
  | cons head rest ih =>
    obtain ⟨m, node⟩ := head
    by_cases hm : m = l
    · subst hm
      by_cases h : k = m
      · simp [putIn, h]
      · simp [putIn, List.lookup_cons, h, beq_eq_false_iff_ne.2 h]
    · by_cases h : k = m
      · subst h
        simp [putIn, hm]
      · simp [putIn, hm, List.lookup_cons, beq_eq_false_iff_ne.2 h, ih]

/-- Writing at a place changes that place alone. -/
theorem get?_put (t : FileTree) {l : Location} (hl : l ≠ []) (n : FileNode) (k : Location) :
    (t.put l n).get? k = if k = l then some n else t.get? k := by
  by_cases hk : k = []
  · subst hk
    simp [get?, Ne.symm hl]
  · simp [get?, put, hk, lookup_putIn]

end FileTree

end AndroidFonts
