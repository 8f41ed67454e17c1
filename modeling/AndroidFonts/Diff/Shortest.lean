/-
# `AndroidFonts.Diff.Shortest` — a shortest script, found from both ends

What the texts begin and end with alike is set aside.  In what remains, two searches run towards
each other, one from the start and one from the end: after `d` rounds each knows, for every diagonal
`k = x - y` of the grid of line pairs, how far it gets with `d` lines deleted or inserted.  Where
they meet, a shortest way passes, and the texts are cut there; the two parts are treated in the same
way.
-/
import AndroidFonts.Diff.Hunk

namespace AndroidFonts.Diff

/-- How far a search has come on each diagonal. -/
structure Frontier where
  /-- The number of diagonals below zero. -/
  offset : Nat
  reached : Array Nat

namespace Frontier

def empty (offset : Nat) : Frontier := ⟨offset, Array.replicate (2 * offset + 2) 0⟩

def get (f : Frontier) (k : Int) : Nat := f.reached.getD (k + f.offset).toNat 0

def set (f : Frontier) (k : Int) (x : Nat) : Frontier :=
  { f with reached := f.reached.setIfInBounds (k + f.offset).toNat x }

/-- Where round `d` starts on a diagonal: one step on from the better neighbour. -/
def start (f : Frontier) (d : Nat) (k : Int) : Nat :=
  if k = -(d : Int) || (k ≠ d && f.get (k - 1) < f.get (k + 1)) then f.get (k + 1)
  else f.get (k - 1) + 1

end Frontier

/-- The number of lines that agree from two positions on, at most so many. -/
def agreeing (old new : Nat → Option String) : Nat → Nat → Nat → Nat
  | 0, _, _ => 0
  | n + 1, x, y =>
    match old x, new y with
    | some a, some b => if a = b then agreeing old new n (x + 1) (y + 1) + 1 else 0
    | _, _ => 0

/-- The diagonals of a round, from the highest down. -/
def diagonals (d : Nat) : List Int :=
  (List.range (d + 1)).map fun (i : Nat) => (d : Int) - 2 * (i : Int)

/-- A search in one direction, and the other one that it may meet. -/
structure Search where
  /-- The line at a distance from where the search starts. -/
  old : Nat → Option String
  new : Nat → Option String
  oldSize : Nat
  newSize : Nat
  /-- Whether this search checks for a meeting, and how many rounds the other one has behind it. -/
  otherRounds : Option Nat

/-- Runs a round of a search over some diagonals.  The result is where the step began and where it
ended at which the searches meet, or the new frontier. -/
def Search.round (s : Search) (d : Nat) (other : Frontier) :
    Frontier → List Int → ((Nat × Nat) × (Nat × Nat)) ⊕ Frontier
  | f, [] => .inr f
  | f, k :: ks =>
    let x := f.start d k
    let y := ((x : Int) - k).toNat
    let n := agreeing s.old s.new (s.oldSize - x) x y
    let f := f.set k (x + n)
    let delta : Int := (s.oldSize : Int) - s.newSize
    let meets := match s.otherRounds with
      | none => false
      | some rounds => (k - delta).natAbs < rounds && s.oldSize ≤ x + n + other.get (delta - k)
    if meets then .inl ((x, y), (x + n, y + n)) else round s d other f ks

/-- The place at which to cut two texts, with so many rounds left. -/
def cutFrom (old new : Array String) : Nat → Nat → Frontier → Frontier → Option (Nat × Nat)
  | 0, _, _, _ => none
  | rounds + 1, d, forward, backward =>
    let odd := (old.size + new.size) % 2 = 1
    let ahead : Search :=
      { old := fun i => old[i]?
        new := fun i => new[i]?
        oldSize := old.size
        newSize := new.size
        otherRounds := if odd then some d else none }
    match ahead.round d backward forward (diagonals d) with
    | .inl (start, _) => some start
    | .inr forward =>
      let back : Search :=
        { old := fun i => if i < old.size then old[old.size - 1 - i]? else none
          new := fun i => if i < new.size then new[new.size - 1 - i]? else none
          oldSize := old.size
          newSize := new.size
          otherRounds := if odd then none else some (d + 1) }
      match back.round d forward backward (diagonals d) with
      | .inl (_, (x, y)) => some (old.size - x, new.size - y)
      | .inr backward => cutFrom old new rounds (d + 1) forward backward

/-- The place at which to cut two texts. -/
def cut (old new : List String) : Option (Nat × Nat) :=
  let rounds := (old.length + new.length + 1) / 2 + 1
  cutFrom old.toArray new.toArray rounds 0 (.empty rounds) (.empty rounds)

/-- The script of what remains when nothing is set aside. -/
def hunks (old new : List String) : List Hunk :=
  (if old = [] then [] else [.delete old]) ++ if new = [] then [] else [.insert new]

/-- A shortest script, with so many cuts left. -/
def scriptFrom : Nat → List String → List String → List Hunk
  | 0, old, new => hunks old new
  | n + 1, old, new =>
    let front := commonPrefix old new
    let old := old.drop front.length
    let new := new.drop front.length
    let back := commonSuffix old new
    let old := old.take (old.length - back.length)
    let new := new.take (new.length - back.length)
    let inner :=
      if old = [] || new = [] then hunks old new
      else
        match cut old new with
        | none => hunks old new
        | some (x, y) =>
          scriptFrom n (old.take x) (new.take y) ++ scriptFrom n (old.drop x) (new.drop y)
    (if front = [] then [] else [.equal front]) ++ inner ++ if back = [] then [] else [.equal back]

/-- A shortest script from one text to another. -/
def shortest (old new : List String) : List Hunk :=
  scriptFrom (old.length + new.length + 1) old new

end AndroidFonts.Diff
