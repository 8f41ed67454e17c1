/-
# `AndroidFonts.Diff.Hunk` — differences between two texts, line by line

A script is a row of hunks: lines both texts have, lines only the old one has, lines only the new
one has.  Leaving out the inserted lines gives the old text, leaving out the deleted ones the new
text (`oldLines`, `newLines`).  A line keeps the line break that ends it, so the last line of a text
without a final line break differs from the same line with one.
-/
namespace AndroidFonts.Diff

/-- Puts a character in front of the first line. -/
def extendFirst (c : Char) : List (List Char) → List (List Char)
  | [] => [[c]]
  | line :: lines => (c :: line) :: lines

/-- The lines of a text with their line breaks: LF, CR LF or CR. -/
def splitLines : List Char → List (List Char)
  | [] => []
  | '\r' :: '\n' :: r => ['\r', '\n'] :: splitLines r
  | c :: r => if c = '\n' || c = '\r' then [c] :: splitLines r else extendFirst c (splitLines r)

/-- The lines of a text. -/
def linesOf (text : String) : List String := (splitLines text.toList).map String.ofList

inductive Hunk where
  | equal (lines : List String)
  | delete (lines : List String)
  | insert (lines : List String)
deriving Repr, DecidableEq

/-- The old text of a script. -/
def oldLines (script : List Hunk) : List String :=
  script.flatMap fun
    | .equal ls => ls
    | .delete ls => ls
    | .insert _ => []

/-- The new text of a script. -/
def newLines (script : List Hunk) : List String :=
  script.flatMap fun
    | .equal ls => ls
    | .delete _ => []
    | .insert ls => ls

/-- The lines two rows begin with alike. -/
def commonPrefix : List String → List String → List String
  | a :: as, b :: bs => if a = b then a :: commonPrefix as bs else []
  | _, _ => []

/-- The lines two rows end with alike. -/
def commonSuffix (as bs : List String) : List String :=
  (commonPrefix as.reverse bs.reverse).reverse

end AndroidFonts.Diff
