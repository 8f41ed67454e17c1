/-
# `AndroidFonts.Unicode.Blank` — white space, and trimming it

The property White_Space: six ASCII characters and nineteen beyond.  Zero-width characters
(U+200B, U+FEFF) and the information separators (U+001C to U+001F) are not blank.
-/
import AndroidFonts.Unicode.Ranges

namespace AndroidFonts.Unicode

/-- The ranges of blank characters. -/
def blankRanges : Array (Nat × Nat) := #[
    (0x09, 0x0d), (0x20, 0x20), (0x85, 0x85), (0xa0, 0xa0), (0x1680, 0x1680), (0x2000, 0x200a),
    (0x2028, 0x2029), (0x202f, 0x202f), (0x205f, 0x205f), (0x3000, 0x3000)]

/-- Whether a character is white space. -/
def isBlank (c : Char) : Bool :=
  inRanges blankRanges c.toNat

/-- A text without the white space at its two ends. -/
def trim (s : List Char) : List Char :=
  (((s.dropWhile isBlank).reverse).dropWhile isBlank).reverse

/-- Whether a text holds nothing but white space. -/
def isBlankText (s : List Char) : Bool :=
  s.all isBlank

end AndroidFonts.Unicode
