/-
# `AndroidFonts.Diff.Script` — a script that is easy to read

Many shortest scripts say the same.  Of a row of equal lines any may be taken as the inserted ones;
each insertion is moved up as far as it goes, joining others that it meets, and then down as far as
it goes.  Where lines are both deleted and inserted, the deleted ones come first.
-/
import AndroidFonts.Diff.Shortest

namespace AndroidFonts.Diff

/-- A script with one hunk in hand; the hunks before it stand in reverse order. -/
structure Cursor where
  before : List Hunk
  hunk : Hunk
  after : List Hunk

namespace Cursor

/-- Equal lines in front of some hunks. -/
def growFront (ls : List String) : List Hunk → List Hunk
  | .equal more :: rest => .equal (ls ++ more) :: rest
  | rest => .equal ls :: rest

/-- Equal lines behind some hunks, which stand in reverse order. -/
def growBack (ls : List String) : List Hunk → List Hunk
  | .equal more :: rest => .equal (more ++ ls) :: rest
  | rest => .equal ls :: rest

/-- Equal lines in front of some hunks, if there are any. -/
def equalThen (ls : List String) (rest : List Hunk) : List Hunk :=
  if ls = [] then rest else .equal ls :: rest

/-- Moves the hunk one step up; none if it stays. -/
def up (c : Cursor) : Option Cursor :=
  match c.hunk, c.before with
  | .insert ls, .equal es :: before =>
    let s := commonSuffix es ls
    if s = [] then none
    else some
      { before := equalThen (es.take (es.length - s.length)) before
        hunk := .insert (s ++ ls.take (ls.length - s.length))
        after := growFront s c.after }
  | .insert ls, .insert more :: before =>
    some { c with before := before, hunk := .insert (more ++ ls) }
  | .delete ls, .delete more :: before =>
    some { c with before := before, hunk := .delete (more ++ ls) }
  | .insert _, .delete ds :: before =>
    some { c with before := before, after := .delete ds :: c.after }
  | .delete _, .insert is :: before =>
    some { c with before := before, after := .insert is :: c.after }
  | _, _ => none

/-- Moves the hunk one step down; none if it stays. -/
def down (c : Cursor) : Option Cursor :=
  match c.hunk, c.after with
  | .insert ls, .equal es :: after =>
    let p := commonPrefix es ls
    if p = [] then none
    else some
      { before := growBack p c.before
        hunk := .insert (ls.drop p.length ++ p)
        after := equalThen (es.drop p.length) after }
  | .insert ls, .insert more :: after =>
    some { c with hunk := .insert (ls ++ more), after := after }
  | .delete ls, .delete more :: after =>
    some { c with hunk := .delete (ls ++ more), after := after }
  | .insert _, .delete ds :: after =>
    some { c with before := .delete ds :: c.before, after := after }
  | .delete _, .insert is :: after =>
    some { c with before := .insert is :: c.before, after := after }
  | _, _ => none

/-- Repeats a move until the hunk stays, at most so many times. -/
def repeatMove (move : Cursor → Option Cursor) : Nat → Cursor → Cursor
  | 0, c => c
  | n + 1, c =>
    match move c with
    | some c => repeatMove move n c
    | none => c

end Cursor

/-- The number of moves that any hunk of a script can make in one direction. -/
def moveBound (script : List Hunk) : Nat :=
  script.length + (oldLines script).length + (newLines script).length + 1

/-- Moves the chosen hunks up and then down, from the first to the last.  A hunk that joined an
earlier one may leave hunks to pass again, so the number of steps is bounded apart. -/
def settle (chosen : Hunk → Bool) (bound : Nat) : Nat → List Hunk → List Hunk → List Hunk
  | 0, before, after => before.reverse ++ after
  | _, before, [] => before.reverse
  | n + 1, before, h :: after =>
    if chosen h then
      let c := Cursor.repeatMove Cursor.up bound ⟨before, h, after⟩
      let c := Cursor.repeatMove Cursor.down bound c
      settle chosen bound n (c.hunk :: c.before) c.after
    else settle chosen bound n (h :: before) after

def Hunk.isDelete : Hunk → Bool
  | .delete _ => true
  | _ => false

def Hunk.isInsert : Hunk → Bool
  | .insert _ => true
  | _ => false

/-- Between equal lines, puts all deleted lines before all inserted ones; those met so far are in
hand. -/
def deletesFirst (deleted inserted : List String) : List Hunk → List Hunk
  | [] => hunks deleted inserted
  | .equal ls :: rest => hunks deleted inserted ++ .equal ls :: deletesFirst [] [] rest
  | .delete ls :: rest => deletesFirst (deleted ++ ls) inserted rest
  | .insert ls :: rest => deletesFirst deleted (inserted ++ ls) rest

/-- The script from one text to another. -/
def script (old new : String) : List Hunk :=
  let found := shortest (linesOf old) (linesOf new)
  let bound := moveBound found
  let settled := settle Hunk.isDelete bound (bound * bound) [] found
  deletesFirst [] [] (settle Hunk.isInsert bound (bound * bound) [] settled)

/-- A line as it is printed, with a line break if it has none. -/
def printLine (sign : Char) (line : String) : String :=
  let ended := line.toList.getLast?.any fun c => c = '\n' || c = '\r'
  sign.toString ++ line ++ if ended then "" else "\n"

/-- A script as text: one line each, signed with what becomes of it. -/
def render (script : List Hunk) : String :=
  String.join <| script.flatMap fun
    | .equal ls => ls.map (printLine ' ')
    | .delete ls => ls.map (printLine '-')
    | .insert ls => ls.map (printLine '+')

end AndroidFonts.Diff
