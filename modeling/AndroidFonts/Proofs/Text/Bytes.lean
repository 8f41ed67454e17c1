/-
# `AndroidFonts.Proofs.Text.Bytes` — the bytes of a text

A character of ASCII is one byte in UTF-8, and that byte is no part of any other character
(`eq_of_toUInt8_mem`).  So an offset at which such a byte stands is an offset at which
the character stands (`getElem?_bytes_eq_some_iff`), and a search over the bytes finds what a search
over the characters finds.
-/
import AndroidFonts.Text.Offset
import Mathlib.Data.List.Basic

namespace AndroidFonts.Text

variable {a c : Char} {s p q : List Char} {n : Nat}

/-- The bytes of some characters in UTF-8. -/
def bytes (s : List Char) : List UInt8 := s.flatMap String.utf8EncodeChar

/-- The bytes that a text is stored as. -/
def bytesOf (text : String) : List UInt8 := text.toByteArray.data.toList

theorem bytesOf_eq (text : String) : bytesOf text = bytes text.toList := by
  unfold bytesOf
  rw [← String.utf8Encode_toList, List.utf8Encode, List.data_toByteArray]
  rfl

theorem bytesOf_ofList (s : List Char) : bytesOf (String.ofList s) = bytes s := by
  rw [bytesOf_eq, String.toList_ofList]

@[simp] theorem bytes_nil : bytes [] = [] := rfl

@[simp] theorem bytes_cons (c : Char) (s : List Char) :
    bytes (c :: s) = String.utf8EncodeChar c ++ bytes s := rfl

@[simp] theorem bytes_append (p q : List Char) : bytes (p ++ q) = bytes p ++ bytes q :=
  List.flatMap_append

@[simp] theorem length_bytes (s : List Char) : (bytes s).length = byteLength s := by
  induction s with
  | nil => rfl
  | cons c s ih => rw [bytes_cons, List.length_append, String.length_utf8EncodeChar, ih, byteLength_cons]

/-! ## Characters of ASCII -/

theorem utf8Size_of_ascii (ha : a.toNat < 0x80) : a.utf8Size = 1 := by
  rw [Char.utf8Size_eq_one_iff, UInt32.le_iff_toNat_le]
  exact Nat.le_of_lt_succ ha

theorem utf8EncodeChar_of_ascii (ha : a.toNat < 0x80) : String.utf8EncodeChar a = [a.toUInt8] :=
  String.utf8EncodeChar_eq_singleton (utf8Size_of_ascii ha)

/-- A character beyond ASCII has no byte below 0x80. -/
theorem le_of_mem_utf8EncodeChar {b : UInt8} (hc : 0x80 ≤ c.toNat)
    (hb : b ∈ String.utf8EncodeChar c) : 0x80 ≤ b.toNat := by
  have hbyte : ∀ n, b = UInt8.ofNat n → 0x80 ≤ n → n < 0x100 → 0x80 ≤ b.toNat := by
    intro n hn hlow hhigh
    rw [hn, UInt8.toNat_ofNat', Nat.mod_eq_of_lt hhigh]
    exact hlow
  simp only [String.utf8EncodeChar.eq_1, Char.toNat_val] at hb
  rw [if_neg (Nat.not_le_of_lt hc)] at hb
  split at hb
  · simp only [List.mem_cons, List.not_mem_nil, or_false] at hb
    rcases hb with hb | hb <;> exact hbyte _ hb (by omega) (by omega)
  · split at hb
    · simp only [List.mem_cons, List.not_mem_nil, or_false] at hb
      rcases hb with hb | hb | hb <;> exact hbyte _ hb (by omega) (by omega)
    · simp only [List.mem_cons, List.not_mem_nil, or_false] at hb
      rcases hb with hb | hb | hb | hb <;> exact hbyte _ hb (by omega) (by omega)

theorem toNat_toUInt8_of_ascii (ha : a.toNat < 0x80) : a.toUInt8.toNat = a.toNat := by
  show a.val.toUInt8.toNat = a.val.toNat
  rw [UInt32.toNat_toUInt8]
  exact Nat.mod_eq_of_lt (Nat.lt_trans ha (by decide))

/-- The byte of an ASCII character is a part of no other character. -/
theorem eq_of_toUInt8_mem (ha : a.toNat < 0x80) (h : a.toUInt8 ∈ String.utf8EncodeChar c) : c = a := by
  have hbyte := toNat_toUInt8_of_ascii ha
  have hc : c.toNat < 0x80 := by
    refine Nat.lt_of_not_le fun hc => ?_
    have := le_of_mem_utf8EncodeChar hc h
    omega
  rw [utf8EncodeChar_of_ascii hc] at h
  have heq : a.toUInt8.toNat = c.toUInt8.toNat := congrArg _ (List.mem_singleton.1 h)
  rw [hbyte, toNat_toUInt8_of_ascii hc] at heq
  exact (Char.toNat_inj.1 heq).symm

/-- The byte of an ASCII character stands where the character stands. -/
theorem getElem?_bytes_eq_some_iff (ha : a.toNat < 0x80) :
    (bytes s)[n]? = some a.toUInt8 ↔ ∃ p q, s = p ++ a :: q ∧ n = byteLength p := by
  constructor
  · intro h
    induction s generalizing n with
    | nil => nomatch h
    | cons c s ih =>
      rw [bytes_cons, List.getElem?_append] at h
      split at h
      · rename_i hlt
        obtain rfl := eq_of_toUInt8_mem ha (List.mem_of_getElem? h)
        rw [String.length_utf8EncodeChar, utf8Size_of_ascii ha] at hlt
        exact ⟨[], s, rfl, Nat.lt_one_iff.1 hlt⟩
      · rename_i hle
        obtain ⟨p, q, rfl, hp⟩ := ih h
        rw [String.length_utf8EncodeChar] at hle hp
        exact ⟨c :: p, q, rfl, by rw [byteLength_cons]; omega⟩
  · rintro ⟨p, q, rfl, rfl⟩
    rw [bytes_append, ← length_bytes, List.getElem?_append_right (Nat.le_refl _), Nat.sub_self,
      bytes_cons, utf8EncodeChar_of_ascii ha]
    rfl

end AndroidFonts.Text
