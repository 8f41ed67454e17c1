/-
# `AndroidFonts.Text.Offset` — byte offsets into a text

A text is a list of characters, and an offset counts the UTF-8 bytes before a place in it.  Cutting
at an offset succeeds exactly on the boundaries between characters: `splitAtByte?_eq_some_iff`
says that an offset is good if and only if it is the byte length of the part before it.
-/
namespace AndroidFonts.Text

/-- The number of bytes of a text in UTF-8. -/
def byteLength : List Char → Nat
  | [] => 0
  | c :: r => c.utf8Size + byteLength r

/-- The two parts of a text around a byte offset; `none` past the end or inside a character. -/
def splitAtByte? : Nat → List Char → Option (List Char × List Char)
  | 0, s => some ([], s)
  | _ + 1, [] => none
  | n + 1, c :: r =>
    if c.utf8Size ≤ n + 1 then
      (splitAtByte? (n + 1 - c.utf8Size) r).map fun (p, q) => (c :: p, q)
    else none

@[simp] theorem byteLength_nil : byteLength [] = 0 := rfl

@[simp] theorem byteLength_cons (c : Char) (r : List Char) :
    byteLength (c :: r) = c.utf8Size + byteLength r := rfl

@[simp] theorem byteLength_append (p q : List Char) :
    byteLength (p ++ q) = byteLength p + byteLength q := by
  induction p with
  | nil => simp
  | cons c r ih => simp [ih, Nat.add_assoc]

/-- Cutting after `p` gives `p` back. -/
theorem splitAtByte?_byteLength (p q : List Char) :
    splitAtByte? (byteLength p) (p ++ q) = some (p, q) := by
  induction p with
  | nil => simp [splitAtByte?]
  | cons c r ih =>
    have hc : 0 < c.utf8Size := c.utf8Size_pos
    obtain ⟨n, hn⟩ : ∃ n, c.utf8Size + byteLength r = n + 1 :=
      ⟨c.utf8Size + byteLength r - 1, by omega⟩
    have hle : c.utf8Size ≤ n + 1 := by omega
    have hsub : n + 1 - c.utf8Size = byteLength r := by omega
    simp [byteLength, hn, splitAtByte?, hle, hsub, ih]

/-- The parts of a cut make up the text, and the first is as long as the offset says. -/
theorem splitAtByte?_sound {n : Nat} {s p q : List Char} (h : splitAtByte? n s = some (p, q)) :
    s = p ++ q ∧ n = byteLength p := by
  induction s generalizing n p with
  | nil =>
    cases n with
    | zero => simp [splitAtByte?] at h; simp [h]
    | succ n => simp [splitAtByte?] at h
  | cons c r ih =>
    cases n with
    | zero =>
      obtain ⟨rfl, rfl⟩ := Prod.mk.inj (Option.some.inj h)
      exact ⟨rfl, rfl⟩
    | succ n =>
      simp only [splitAtByte?] at h
      split at h
      case isFalse => simp at h
      case isTrue hle =>
        obtain ⟨⟨p', q'⟩, hr, hpq⟩ := Option.map_eq_some_iff.1 h
        simp only [Prod.mk.injEq] at hpq
        obtain ⟨rfl, rfl⟩ := hpq
        obtain ⟨h1, h2⟩ := ih hr
        exact ⟨by simp [h1], by simp only [byteLength_cons]; omega⟩

/-- An offset can be cut at exactly when it is the byte length of a first part of the text. -/
theorem splitAtByte?_eq_some_iff {n : Nat} {s p q : List Char} :
    splitAtByte? n s = some (p, q) ↔ s = p ++ q ∧ n = byteLength p :=
  ⟨splitAtByte?_sound, fun ⟨hs, hn⟩ => hs ▸ hn ▸ splitAtByte?_byteLength p q⟩

end AndroidFonts.Text
