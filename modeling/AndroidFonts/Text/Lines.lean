/-
# `AndroidFonts.Text.Lines` — texts as pieces between separators

`splitOn sep s` has one piece more than `s` has separators, so that joining the pieces again gives
`s` back (`intercalate_splitOn`).
-/
namespace AndroidFonts.Text

/-- The pieces of a text between the occurrences of a separator. -/
def splitOn (sep : Char) : List Char → List (List Char)
  | [] => [[]]
  | c :: r =>
    if c = sep then [] :: splitOn sep r
    else
      match splitOn sep r with
      | [] => [[c]]
      | piece :: pieces => (c :: piece) :: pieces

theorem splitOn_ne_nil (sep : Char) (s : List Char) : splitOn sep s ≠ [] := by
  cases s with
  | nil => simp [splitOn]
  | cons c r =>
    by_cases hc : c = sep
    · simp [splitOn, hc]
    · simp only [splitOn, hc, if_false]
      split <;> simp

/-- Joining the pieces with the separator gives the text back. -/
theorem intercalate_splitOn (sep : Char) (s : List Char) :
    [sep].intercalate (splitOn sep s) = s := by
  induction s with
  | nil => simp [splitOn, List.intercalate]
  | cons c r ih =>
    simp only [splitOn]
    cases h : splitOn sep r with
    | nil => exact absurd h (splitOn_ne_nil sep r)
    | cons piece pieces =>
      rw [h] at ih
      by_cases hc : c = sep
      · simp [hc, List.intercalate] at ih ⊢; exact ih
      · simp only [hc, if_false]
        cases pieces with
        | nil => simp [List.intercalate] at ih ⊢; exact ih
        | cons q ps => simp [List.intercalate] at ih ⊢; exact ih

end AndroidFonts.Text
