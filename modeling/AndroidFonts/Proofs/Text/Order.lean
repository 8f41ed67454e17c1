/-
# `AndroidFonts.Proofs.Text.Order` — texts come in the order of their bytes

Texts are compared character by character, and a file system sorts names byte by byte.  In UTF-8 the two
orders are one (`bytesOf_lt_iff`).  The first byte of a character tells how many bytes it has, and more
bytes mean a later character (`exists_lead`); among characters with equally many bytes the digits of
the code points decide (`utf8EncodeChar_lt_of_iff`).
-/
import AndroidFonts.Proofs.Text.Bytes
import Mathlib.Tactic.SplitIfs

namespace AndroidFonts.Text

variable {c d : Char} {s u : List Char}

/-- Of lists of one length, the lesser one is so whatever follows. -/
theorem append_lt_append {u v x y : List UInt8} (hlength : u.length = v.length) (h : u < v) :
    u ++ x < v ++ y := by
  induction u generalizing v with
  | nil =>
    obtain rfl := List.length_eq_zero_iff.1 hlength.symm
    exact absurd h (List.lt_irrefl _)
  | cons b u ih =>
    cases v with
    | nil => nomatch hlength
    | cons b' v =>
      rw [List.cons_lt_cons_iff] at h
      rw [List.cons_append, List.cons_append, List.cons_lt_cons_iff]
      exact h.imp_right fun ⟨hb, huv⟩ => ⟨hb, ih (Nat.succ.inj hlength) huv⟩

theorem ofNat_cons_lt_iff {i j : Nat} {u v : List UInt8} (hi : i < 0x100) (hj : j < 0x100) :
    UInt8.ofNat i :: u < UInt8.ofNat j :: v ↔ i < j ∨ i = j ∧ u < v := by
  rw [List.cons_lt_cons_iff, UInt8.ofNat_lt_iff_lt hi hj, ← UInt8.toNat_inj, UInt8.toNat_ofNat_of_lt' hi,
    UInt8.toNat_ofNat_of_lt' hj]

theorem toNat_lt (c : Char) : c.toNat < 0x110000 := by
  have h : c.toNat.isValidChar := c.valid
  unfold Nat.isValidChar at h
  omega

/-- The first byte of a character tells how many there are. -/
theorem exists_lead (c : Char) : ∃ i u, String.utf8EncodeChar c = UInt8.ofNat i :: u ∧ i < 0x100 ∧
    (c.toNat < 0x80 ↔ i < 0xc0) ∧ (c.toNat < 0x800 ↔ i < 0xe0) ∧ (c.toNat < 0x10000 ↔ i < 0xf0) := by
  have := toNat_lt c
  simp only [String.utf8EncodeChar.eq_1, Char.toNat_val]
  split
  · exact ⟨_, _, rfl, by omega⟩
  split
  · exact ⟨_, _, rfl, by omega⟩
  split
  · exact ⟨_, _, rfl, by omega⟩
  · exact ⟨_, _, rfl, by omega⟩

/-- Of characters with equally many bytes, the one that comes first has the lesser ones. -/
theorem utf8EncodeChar_lt_of_iff (h : c.toNat < d.toNat) (h₁ : c.toNat < 0x80 ↔ d.toNat < 0x80)
    (h₂ : c.toNat < 0x800 ↔ d.toNat < 0x800) (h₃ : c.toNat < 0x10000 ↔ d.toNat < 0x10000) :
    (String.utf8EncodeChar c).length = (String.utf8EncodeChar d).length ∧
      String.utf8EncodeChar c < String.utf8EncodeChar d := by
  have := toNat_lt d
  simp only [String.utf8EncodeChar.eq_1, Char.toNat_val]
  generalize c.toNat = n at *
  generalize d.toNat = m at *
  simp only [show m ≤ 127 ↔ n ≤ 127 by omega, show m ≤ 2047 ↔ n ≤ 2047 by omega,
    show m ≤ 65535 ↔ n ≤ 65535 by omega]
  split_ifs <;> refine ⟨rfl, ?_⟩ <;> simp (disch := omega) only [ofNat_cons_lt_iff]
  · omega
  · omega
  · omega
  · -- four digits to base 64 are compared one after the other
    have hdigit : ∀ i j : Nat, i < j → i / 64 < j / 64 ∨ i / 64 = j / 64 ∧ i % 64 < j % 64 := by
      omega
    rcases hdigit n m h with h | h
    · rcases hdigit _ _ h with h | h
      · rcases hdigit _ _ h with h | h <;> omega
      · omega
    · omega

/-- The character that comes first has the lesser bytes, whatever follows. -/
theorem utf8EncodeChar_append_lt (h : c < d) (x y : List UInt8) :
    String.utf8EncodeChar c ++ x < String.utf8EncodeChar d ++ y := by
  have hlt : c.toNat < d.toNat := h
  by_cases hsize : (c.toNat < 0x80 ↔ d.toNat < 0x80) ∧ (c.toNat < 0x800 ↔ d.toNat < 0x800) ∧
      (c.toNat < 0x10000 ↔ d.toNat < 0x10000)
  · obtain ⟨hlength, hbytes⟩ := utf8EncodeChar_lt_of_iff hlt hsize.1 hsize.2.1 hsize.2.2
    exact append_lt_append hlength hbytes
  · obtain ⟨i, u, hc, hi, hi'⟩ := exists_lead c
    obtain ⟨j, v, hd, hj, hj'⟩ := exists_lead d
    rw [hc, hd, List.cons_append, List.cons_append, ofNat_cons_lt_iff hi hj]
    exact .inl (by omega)

theorem bytes_lt_of_lt (h : s < u) : bytes s < bytes u := by
  induction s generalizing u with
  | nil =>
    cases u with
    | nil => exact absurd h (List.lt_irrefl _)
    | cons d u =>
      obtain ⟨i, v, hd, -⟩ := exists_lead d
      rw [bytes_cons, hd]
      exact List.nil_lt_cons _ _
  | cons c s ih =>
    cases u with
    | nil => exact absurd h (List.not_lt_nil _)
    | cons d u =>
      rcases List.cons_lt_cons_iff.1 h with hcd | ⟨rfl, hsu⟩
      · exact utf8EncodeChar_append_lt hcd _ _
      · exact List.append_left_lt (ih hsu)

/-- Texts come in the order of their bytes. -/
theorem bytesOf_lt_iff {s u : String} : bytesOf s < bytesOf u ↔ s < u := by
  have hmono : ∀ {s u : String}, s < u → bytesOf s < bytesOf u := by
    intro s u h
    rw [bytesOf_eq, bytesOf_eq]
    exact bytes_lt_of_lt (String.lt_iff.1 h)
  refine ⟨fun h => Decidable.byContradiction fun hnot => ?_, hmono⟩
  by_cases hlt : u < s
  · exact List.lt_irrefl _ (List.lt_trans h (hmono hlt))
  · obtain rfl := String.le_antisymm (String.not_lt.1 hlt) (String.not_lt.1 hnot)
    exact List.lt_irrefl _ h

end AndroidFonts.Text
