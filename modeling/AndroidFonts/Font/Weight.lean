/-
# `AndroidFonts.Font.Weight` — the weights a font may have

A font file has a weight from 1 to 1000.  The platform names nine of them, the hundreds from 100 to
900, and any other number falls back to one of these.
-/
namespace AndroidFonts

/-- Whether a weight is legal for a font file. -/
def isFontWeight (weight : Nat) : Bool := 1 ≤ weight && weight ≤ 1000

theorem isFontWeight_iff {weight : Nat} : isFontWeight weight = true ↔ 1 ≤ weight ∧ weight ≤ 1000 := by
  rw [isFontWeight, Bool.and_eq_true, decide_eq_true_eq, decide_eq_true_eq]

/-- The named weight used for a number: light weights round down, heavy ones up, and the ends
stay in range. -/
def fallbackWeight (weight : Int) : Int :=
  if weight ≤ 500 then max weight 100 / 100 * 100
  else if 900 < weight then 900
  else (weight + 99) / 100 * 100

end AndroidFonts
