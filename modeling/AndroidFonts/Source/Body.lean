/-
# `AndroidFonts.Source.Body` — braces, and the body of a method

A body is a text cut at a brace and at the brace that closes it.  Braces are counted wherever they
stand, in strings and comments too.  `locate` finds the class by the head of its declaration, the
method by the first head that begins after that, and the body by the first brace from there on.
-/
import AndroidFonts.Source.Dialect
import AndroidFonts.Source.Error
import AndroidFonts.Text.Search

namespace AndroidFonts

open Text

/-- The text before the brace that closes `depth + 1` open ones, and the text from that brace on. -/
def splitAtClose? : Nat → List Char → Option (List Char × List Char)
  | _, [] => none
  | depth, c :: r =>
    match c, depth with
    | '}', 0 => some ([], c :: r)
    | '}', d + 1 => (splitAtClose? d r).map fun (p, q) => (c :: p, q)
    | '{', d => (splitAtClose? (d + 1) r).map fun (p, q) => (c :: p, q)
    | _, d => (splitAtClose? d r).map fun (p, q) => (c :: p, q)

/-- The byte offset of the brace that closes the one at offset `opening`; `none` if there is no
opening brace there or it is never closed. -/
def matchDelimiter (text : String) (opening : Nat) : Option Nat :=
  match splitAtByte? opening text.toList with
  | some (_, '{' :: r) => (splitAtClose? 0 r).map fun (p, _) => opening + 1 + byteLength p
  | _ => none

/-- The byte offsets of a brace and of the one that closes it. -/
structure Span where
  opening : Nat
  closing : Nat
deriving Repr, DecidableEq

/-- A text cut around a body. -/
structure Body where
  /-- The text through the opening brace. -/
  before : List Char
  inside : List Char
  /-- The text from the closing brace on. -/
  after : List Char
deriving Repr, DecidableEq

namespace Body

def text (b : Body) : List Char := b.before ++ b.inside ++ b.after

/-- The offsets of the two braces. -/
def span (b : Body) : Span :=
  { opening := byteLength b.before - 1
    closing := byteLength b.before + byteLength b.inside }

/-- The body at two offsets, which have to lie on characters and in order. -/
def ofSpan? (text : String) (s : Span) : Option Body := do
  let (front, after) ← splitAtByte? s.closing text.toList
  let (before, inside) ← splitAtByte? (s.opening + 1) front
  return ⟨before, inside, after⟩

/-- The body that begins at the first brace of `rest`, which follows `front`. -/
def firstIn? (front rest : List Char) : Option Body := do
  let (head, tail) ← cut? ['{'] rest
  let (inside, after) ← splitAtClose? 0 tail
  return ⟨front ++ head ++ ['{'], inside, after⟩

/-- The pattern of a declaration, or the error of a text that is no pattern. -/
def anchorPattern (d : Dialect) (a : Anchor) : Except PatchError Pattern :=
  match a.pattern? d with
  | some p => .ok p
  | none => .error (.invalidPattern (a.patternText d))

/-- The body of the first method of this name declared after the first class of that name. -/
def locate (text className methodName : String) (d : Dialect) : Except PatchError Body := do
  let classPattern ← anchorPattern d (.classHead className)
  let some classHead := classPattern.find? text.toList
    | throw (.classNotFound className)
  let methodPattern ← anchorPattern d (.methodHead methodName)
  let some methodHead := (methodPattern.findAll text.toList).find? fun m =>
      classHead.start < m.start
    | throw (.methodNotFound className methodName)
  match firstIn? methodHead.before (methodHead.matched ++ methodHead.after) with
  | some body => return body
  | none => throw (.bodyNotFound className methodName)

end Body

end AndroidFonts
