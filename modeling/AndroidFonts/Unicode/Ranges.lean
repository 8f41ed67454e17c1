/-
# `AndroidFonts.Unicode.Ranges` — membership in a table of code points

A property of characters is a table of ranges.  A table is searched from its front: the texts
looked at are mostly ASCII, and the tables are only asked about the rest.
-/
namespace AndroidFonts.Unicode

/-- Whether `n` lies in one of the ranges, both ends included. -/
def inRanges (table : Array (Nat × Nat)) (n : Nat) : Bool :=
  table.any fun (first, last) => first ≤ n && n ≤ last

/-- Whether `n` is one of the code points `first, first + step, …, last` of a row. -/
def inSteps (table : Array (Nat × Nat × Nat)) (n : Nat) : Bool :=
  table.any fun (first, last, step) => first ≤ n && n ≤ last && (n - first) % step = 0

end AndroidFonts.Unicode
