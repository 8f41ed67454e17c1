/-
# `AndroidFonts.Unicode.Word` — characters that make up words

Two notions of a word.  An *alphanumeric* character is one that belongs to a word of a display
name: letters and numbers, as of Unicode 17.  A *word character* is one an identifier may hold in
the pattern language: letters, marks, digits, connecting punctuation and the two joiners.  The
pattern language goes by Unicode 16, so what Unicode 17 has added is no word character yet.
-/
import AndroidFonts.Unicode.Alphabetic
import AndroidFonts.Unicode.Mark
import AndroidFonts.Unicode.Number

namespace AndroidFonts.Unicode

/-- The ranges of connecting punctuation beside the low line. -/
def connectorRanges : Array (Nat × Nat) := #[
    (0x203f, 0x2040), (0x2054, 0x2054), (0xfe33, 0xfe34), (0xfe4d, 0xfe4f), (0xff3f, 0xff3f)]

/-- Whether a character is punctuation that connects words, such as the low line. -/
def isConnector (c : Char) : Bool :=
  c == '_' || inRanges connectorRanges c.toNat

/-- Whether a character is one of the two joiners, which control ligatures. -/
def isJoiner (c : Char) : Bool :=
  c.toNat == 0x200c || c.toNat == 0x200d

/-- The ranges of letters, marks and digits that Unicode 17 has added. -/
def addedRanges : Array (Nat × Nat) := #[
    (0x88f, 0x88f), (0xc5c, 0xc5c), (0xcdc, 0xcdc), (0x1acf, 0x1add), (0x1ae0, 0x1aeb),
    (0xa7ce, 0xa7cf), (0xa7d2, 0xa7d2), (0xa7d4, 0xa7d4), (0xa7f1, 0xa7f1), (0x10940, 0x10959),
    (0x10ec5, 0x10ec7), (0x10efa, 0x10efb), (0x11b60, 0x11b67), (0x11db0, 0x11ddb),
    (0x11de0, 0x11de9), (0x16ea0, 0x16eb8), (0x16ebb, 0x16ed3), (0x16ff2, 0x16ff6),
    (0x187f8, 0x187ff), (0x18d09, 0x18d1e), (0x18d80, 0x18df2), (0x1e6c0, 0x1e6de),
    (0x1e6e0, 0x1e6f5), (0x1e6fe, 0x1e6ff), (0x2b73a, 0x2b73f), (0x2cea2, 0x2cead),
    (0x323b0, 0x33479)]

/-- Whether a character is in Unicode 17 but not in Unicode 16. -/
def isAdded (c : Char) : Bool :=
  0x80 ≤ c.toNat && inRanges addedRanges c.toNat

/-- Whether a character is a decimal digit in the pattern language. -/
def isPatternDigit (c : Char) : Bool :=
  isDecimal c && !isAdded c

/-- Whether a character may stand in an identifier of the pattern language. -/
def isWordChar (c : Char) : Bool :=
  (isAlphabetic c || isDecimal c || isConnector c || isMark c || isJoiner c) && !isAdded c

/-- Whether a character is a letter or a number of some script. -/
def isAlphanumeric (c : Char) : Bool :=
  isAlphabetic c || isNumber c

end AndroidFonts.Unicode
