/-
# `AndroidFonts.Pattern.Cache` — compiled patterns, kept by their text

A cache answers like `Notation.read?` and keeps what it read.  It holds `capacity` patterns at
most: a text it does not know empties a full cache first, even if the text then turns out to be no
pattern.
-/
import AndroidFonts.Pattern.Syntax

namespace AndroidFonts

/-- Patterns with the texts they were read from, the latest first. -/
structure PatternCache where
  entries : List (String × Notation)
deriving Repr

namespace PatternCache

/-- The number of patterns a cache may hold. -/
def capacity : Nat := 256

def empty : PatternCache := ⟨[]⟩

/-- The number of patterns held. -/
def size (cache : PatternCache) : Nat := cache.entries.length

/-- The pattern kept for a text. -/
def get? (cache : PatternCache) (text : String) : Option Notation := cache.entries.lookup text

/-- The pattern of a text, and the cache that remembers it. -/
def compile (cache : PatternCache) (text : String) : Option Notation × PatternCache :=
  match cache.get? text with
  | some p => (some p, cache)
  | none =>
    let kept := if capacity ≤ cache.size then empty else cache
    match Notation.read? text.toList with
    | some p => (some p, ⟨(text, p) :: kept.entries⟩)
    | none => (none, kept)

end PatternCache

end AndroidFonts
