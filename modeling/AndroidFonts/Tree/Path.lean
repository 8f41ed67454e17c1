/-
# `AndroidFonts.Tree.Path` — paths as they are written

A path is text.  Its pieces are what stands between slashes; empty pieces and `.` say nothing about
where it leads, so the last piece and the parent are taken without them.  Joining keeps the text of
both sides, and an absolute right side replaces the left.
-/
import AndroidFonts.Text.Lines

namespace AndroidFonts

open Text

/-- A path as written. -/
structure Path where
  text : String
deriving Repr, DecidableEq, Inhabited

namespace Path

/-- Whether a path starts at the top of the file system. -/
def isAbsolute (p : Path) : Bool := p.text.toList.head? = some '/'

/-- `p` followed by `q`, or `q` itself if it is absolute. -/
def join (p : Path) (q : String) : Path :=
  if (Path.mk q).isAbsolute || p.text.toList = [] then ⟨q⟩
  else if p.text.toList.getLast? = some '/' then ⟨p.text ++ q⟩
  else ⟨p.text ++ "/" ++ q⟩

/-- What stands between the slashes, the text before the first one included. -/
def pieces (p : Path) : List (List Char) := splitOn '/' p.text.toList

/-- Whether a piece leads nowhere. -/
def isVoid (piece : List Char) : Bool := piece = [] || piece = ['.']

/-- The name a path ends in; none for the top, for nothing, and for `..`. -/
def fileName? (p : Path) : Option String :=
  match p.pieces.reverse.dropWhile isVoid with
  | [] => none
  | ['.', '.'] :: _ => none
  | name :: _ => some (String.ofList name)

/-- The path without its last piece; none if it has no piece. -/
def parent? (p : Path) : Option Path :=
  match p.pieces.reverse.dropWhile isVoid with
  | [] => none
  | _ :: rest =>
    let kept := ['/'].intercalate (rest.dropWhile isVoid).reverse
    some ⟨String.ofList (if p.isAbsolute && kept = [] then ['/'] else kept)⟩

/-- The name a path ends in, up to its last dot; a dot in front does not count. -/
def fileStem? (p : Path) : Option String :=
  p.fileName?.map fun name =>
    match name.toList.reverse.dropWhile (· ≠ '.') with
    | [] => name
    | [_] => name
    | _ :: rest => String.ofList rest.reverse

end Path

end AndroidFonts
