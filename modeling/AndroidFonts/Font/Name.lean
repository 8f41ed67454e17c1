/-
# `AndroidFonts.Font.Name` — resource names

A resource name is made of `a` to `z`, digits and low lines.  A display name becomes one by being
cut into words at everything that is no letter and no number, and within that where the case of the
letters shows a new word ("OpenSans", "PTSans").  The words are written small and joined by `_`, and
what is not ASCII is left out at the end.

A font file's resource name is the name of the file up to its last dot.
-/
import AndroidFonts.Tree.Path
import AndroidFonts.Unicode.LetterCase
import AndroidFonts.Unicode.Word

namespace AndroidFonts

/-- The case of the letters read last in a word, if there were any. -/
inductive CaseMode where
  | undecided
  | lower
  | upper
deriving Repr, DecidableEq

namespace CaseMode

/-- The mode after one more character. -/
def next (mode : CaseMode) (c : Char) : CaseMode :=
  if Unicode.isLowercase c then .lower
  else if Unicode.isUppercase c then .upper
  else mode

end CaseMode

namespace ResourceName

/-- Puts a character in front of the first word. -/
def prepend (c : Char) : List (List Char) → List (List Char)
  | [] => [[c]]
  | word :: words => (c :: word) :: words

/-- The words of a run of letters and numbers.  A word ends before a capital that follows a small
letter, and before the last of several capitals if a small letter follows it. -/
def humps : CaseMode → List Char → List (List Char)
  | _, [] => []
  | _, [c] => [[c]]
  | mode, c :: d :: rest =>
    if mode.next c = .lower && Unicode.isUppercase d then
      [c] :: humps .undecided (d :: rest)
    else if mode = .upper && Unicode.isUppercase c && Unicode.isLowercase d then
      [] :: prepend c (humps .undecided (d :: rest))
    else
      prepend c (humps (mode.next c) (d :: rest))

/-- The runs of letters and numbers in a text; between two neighbouring separators is an empty
one. -/
def runs : List Char → List (List Char)
  | [] => [[]]
  | c :: r => if Unicode.isAlphanumeric c then prepend c (runs r) else [] :: runs r

/-- The words of a display name. -/
def words (name : List Char) : List (List Char) :=
  (runs name).flatMap (humps .undecided)

/-- The small form of a character, if that is a character of resource names.  Two letters beyond
ASCII have a small form in it: the dotted capital I and the Kelvin sign. -/
def small? (c : Char) : Option Char :=
  if c.isAlphanum then some c.toLower
  else if c = 'İ' then some 'i'
  else if c = '\u212a' then some 'k'
  else none

end ResourceName

open ResourceName in
/-- The resource name made from a display name. -/
def normalizeName (name : String) : String :=
  String.ofList (['_'].intercalate ((words name.toList).map (·.filterMap small?)))

/-- The resource name of a font file. -/
def fontResourceId (fileName : String) : String :=
  ((Path.mk fileName).fileStem?).getD ""

/-- How a font file is referred to in resource XML. -/
def fontResourceRef (fileName : String) : String :=
  "@font/" ++ fontResourceId fileName

end AndroidFonts
