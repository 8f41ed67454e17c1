/-
# `AndroidFonts.Text.Search` — the first occurrence of one text in another

`cut? needle s` is the text before and after the first place where `needle` stands in `s`.  All
tests for literal text come down to it.
-/
namespace AndroidFonts.Text

/-- What follows `needle` at the front of a text, if it stands there. -/
def afterPrefix? : List Char → List Char → Option (List Char)
  | [], s => some s
  | _ :: _, [] => none
  | a :: needle, c :: s => if a = c then afterPrefix? needle s else none

/-- The text before and after the first occurrence of `needle`. -/
def cut? (needle : List Char) : List Char → Option (List Char × List Char)
  | [] => (afterPrefix? needle []).map fun q => ([], q)
  | c :: r =>
    match afterPrefix? needle (c :: r) with
    | some q => some ([], q)
    | none => (cut? needle r).map fun (p, q) => (c :: p, q)

/-- Whether `needle` occurs in a text. -/
def occursIn (needle s : List Char) : Bool :=
  (cut? needle s).isSome

/-- A text with every occurrence of `needle` replaced, from the left and without overlap; an
empty needle leaves the text as it is. -/
def replaceAll (needle replacement : List Char) (s : List Char) : List Char :=
  go s.length s
where
  /-- Each round takes up at least one character, so the length of the text bounds the rounds. -/
  go : Nat → List Char → List Char
    | 0, s => s
    | n + 1, s =>
      if needle = [] then s else
      match cut? needle s with
      | none => s
      | some (p, q) => p ++ replacement ++ go n q

theorem afterPrefix?_eq_some_iff {needle s q : List Char} :
    afterPrefix? needle s = some q ↔ s = needle ++ q := by
  induction needle generalizing s with
  | nil => simp [afterPrefix?]
  | cons a needle ih =>
    cases s with
    | nil => simp [afterPrefix?]
    | cons c s =>
      by_cases h : a = c
      · simp [afterPrefix?, h, ih]
      · simp [afterPrefix?, h, Ne.symm h]

/-- The parts around an occurrence make up the text. -/
theorem eq_append_of_cut? {needle s p q : List Char} (h : cut? needle s = some (p, q)) :
    s = p ++ needle ++ q := by
  induction s generalizing p with
  | nil =>
    obtain ⟨r, hr, hp⟩ := Option.map_eq_some_iff.1 h
    obtain ⟨rfl, rfl⟩ := Prod.mk.inj hp
    simpa using afterPrefix?_eq_some_iff.1 hr
  | cons c r ih =>
    simp only [cut?] at h
    split at h
    case h_1 q' hq =>
      obtain ⟨rfl, rfl⟩ := Prod.mk.inj (Option.some.inj h)
      simpa using afterPrefix?_eq_some_iff.1 hq
    case h_2 =>
      obtain ⟨⟨p', q'⟩, hr, hp⟩ := Option.map_eq_some_iff.1 h
      obtain ⟨rfl, rfl⟩ := Prod.mk.inj hp
      simp [ih hr]

end AndroidFonts.Text
