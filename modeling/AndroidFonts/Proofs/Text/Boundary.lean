/-
# `AndroidFonts.Proofs.Text.Boundary` — offsets between characters, and searches over bytes

A text is stored as bytes, and an offset into them need not lie between two characters.  The first byte
of a character is told from all others by its bits, so the bytes alone say where characters begin
(`IsBoundary`), and the offsets that lie between characters are the byte lengths of the front parts of
the text (`isBoundary_bytes_iff`).

A search goes over the bytes as well.  No character begins inside another one, and none has bytes with
which another one begins.  So what is found in the bytes is what is found in the characters, and in
particular at a boundary (`offsetOf?_bytes`).
-/
import AndroidFonts.Proofs.Text.Order
import AndroidFonts.Proofs.Text.Search

namespace AndroidFonts.Text

variable {c d : Char} {s needle : List Char} {bs x y front : List UInt8} {b : UInt8} {n : Nat}
  {text : String}

/-! ## Boundaries -/

/-- Whether an offset lies between two characters: the first byte of a character stands there, or the
bytes end. -/
def IsBoundary (bs : List UInt8) (n : Nat) : Prop :=
  n = bs.length ∨ ∃ b ∈ bs[n]?, b.IsUTF8FirstByte

instance (bs : List UInt8) (n : Nat) : Decidable (IsBoundary bs n) :=
  inferInstanceAs (Decidable (_ ∨ _))

theorem isBoundary_bytesOf_iff_isValid :
    IsBoundary (bytesOf text) n ↔ (String.Pos.Raw.mk n).IsValid text := by
  have hlength : (bytesOf text).length = text.utf8ByteSize := rfl
  have hend : String.Pos.Raw.mk n = text.rawEndPos ↔ n = text.utf8ByteSize := by
    rw [String.Pos.Raw.ext_iff, String.byteIdx_rawEndPos]
  rw [String.Pos.Raw.isValid_iff_isUTF8FirstByte, hend, IsBoundary, hlength]
  refine or_congr_right ⟨?_, ?_⟩
  · rintro ⟨b, hb, hfirst⟩
    obtain ⟨hlt, rfl⟩ := List.getElem?_eq_some_iff.1 hb
    exact ⟨hlt, hfirst⟩
  · rintro ⟨hlt, hfirst⟩
    exact ⟨_, List.getElem?_eq_some_iff.2 ⟨hlt, rfl⟩, hfirst⟩

/-- An offset between two characters is the byte length of the text in front of it. -/
theorem isBoundary_bytes_iff : IsBoundary (bytes s) n ↔ ∃ p q, s = p ++ q ∧ n = byteLength p := by
  have hlength : ∀ t : String, t.utf8ByteSize = byteLength t.toList := fun t => by
    rw [← length_bytes, ← bytesOf_eq]
    rfl
  rw [← bytesOf_ofList, isBoundary_bytesOf_iff_isValid, String.Pos.Raw.isValid_iff_exists_append]
  simp only [String.Pos.Raw.ext_iff, String.byteIdx_rawEndPos, hlength]
  constructor
  · rintro ⟨t, u, htext, hn⟩
    exact ⟨t.toList, u.toList, by rw [← String.toList_append, ← htext, String.toList_ofList], hn⟩
  · rintro ⟨p, q, rfl, hn⟩
    exact ⟨String.ofList p, String.ofList q, String.ofList_append, by rwa [String.toList_ofList]⟩

/-! ## First bytes -/

theorem exists_first_byte (c : Char) : ∃ b x, String.utf8EncodeChar c = b :: x ∧ b.IsUTF8FirstByte ∧
    ∀ b' ∈ x, ¬ b'.IsUTF8FirstByte := by
  have hfirst : ∀ i (hi : i < (String.utf8EncodeChar c).length),
      (String.utf8EncodeChar c)[i].IsUTF8FirstByte ↔ i = 0 := fun i hi =>
    UInt8.isUTF8FirstByte_getElem_utf8EncodeChar
  cases h : String.utf8EncodeChar c with
  | nil => exact absurd h String.utf8EncodeChar_ne_nil
  | cons b x =>
    simp only [h] at hfirst
    refine ⟨b, x, rfl, (hfirst 0 (Nat.zero_lt_succ _)).2 rfl, fun b' hb' hb => ?_⟩
    obtain ⟨i, hi, rfl⟩ := List.getElem_of_mem hb'
    exact Nat.succ_ne_zero i ((hfirst (i + 1) (Nat.succ_lt_succ hi)).1 hb)

/-- What begins with the bytes of two characters begins with one character. -/
theorem utf8EncodeChar_append_inj
    (h : String.utf8EncodeChar c ++ x = String.utf8EncodeChar d ++ y) : c = d ∧ x = y := by
  obtain rfl : c = d := by
    by_contra hne
    rcases Nat.lt_or_gt_of_ne (mt Char.toNat_inj.1 hne) with hlt | hlt
    · exact List.lt_irrefl _ (h ▸ utf8EncodeChar_append_lt hlt x y)
    · exact List.lt_irrefl _ (h ▸ utf8EncodeChar_append_lt hlt y x)
  exact ⟨rfl, List.append_cancel_left h⟩

theorem bytes_prefix_iff : bytes needle <+: bytes s ↔ needle <+: s := by
  constructor
  · intro h
    induction needle generalizing s with
    | nil => exact List.nil_prefix
    | cons c needle ih =>
      obtain ⟨r, hr⟩ := h
      rw [bytes_cons, List.append_assoc] at hr
      cases s with
      | nil => exact absurd (List.append_eq_nil_iff.1 hr).1 String.utf8EncodeChar_ne_nil
      | cons d s =>
        obtain ⟨rfl, hrest⟩ := utf8EncodeChar_append_inj hr
        exact (List.prefix_cons_inj c).2 (ih ⟨r, hrest⟩)
  · rintro ⟨r, rfl⟩
    exact ⟨bytes r, (bytes_append needle r).symm⟩

/-! ## Searches -/

/-- The offset of the first occurrence of some bytes. -/
def offsetOf? (needle : List UInt8) : List UInt8 → Option Nat
  | [] => if needle = [] then some 0 else none
  | b :: bs => if needle <+: b :: bs then some 0 else (offsetOf? needle bs).map (· + 1)

/-- Bytes with which the needle does not begin are passed over. -/
theorem offsetOf?_append (hb : b ∉ front) : offsetOf? (b :: x) (front ++ bs) =
    (offsetOf? (b :: x) bs).map (· + front.length) := by
  induction front with
  | nil => exact Option.map_id.symm ▸ rfl
  | cons b' front ih =>
    obtain ⟨hne, hb⟩ := not_or.1 (mt List.mem_cons.2 hb)
    rw [List.cons_append, offsetOf?, if_neg fun h => hne (List.cons_prefix_cons.1 h).1, ih hb,
      Option.map_map]
    rfl

/-- What is found in the bytes is what is found in the characters. -/
theorem offsetOf?_bytes (needle s : List Char) : offsetOf? (bytes needle) (bytes s) =
    (cut? needle s).map fun (p, _) => byteLength p := by
  cases needle with
  | nil =>
    cases s with
    | nil => rfl
    | cons c s =>
      obtain ⟨b, x, hc, -⟩ := exists_first_byte c
      rw [bytes_cons, hc]
      rfl
  | cons a needle =>
    obtain ⟨b, x, ha, hfirst, -⟩ := exists_first_byte a
    induction s with
    | nil =>
      have hne : bytes (a :: needle) ≠ [] := by
        rw [bytes_cons, ha]
        nofun
      exact if_neg hne
    | cons c s ih =>
      obtain ⟨b', y, hc, -, hinside⟩ := exists_first_byte c
      have hbytes : bytes (c :: s) = b' :: (y ++ bytes s) := by rw [bytes_cons, hc, List.cons_append]
      by_cases hfront : a :: needle <+: c :: s
      · obtain ⟨r, hr⟩ := hfront
        have hfound : bytes (a :: needle) <+: b' :: (y ++ bytes s) :=
          hbytes ▸ bytes_prefix_iff.2 ⟨r, hr⟩
        rw [hbytes, offsetOf?, if_pos hfound, ← hr, cut?_self_append]
        rfl
      · -- no character begins inside another one, so the search goes on behind the first character
        have hnot : ¬ bytes (a :: needle) <+: b' :: (y ++ bytes s) := fun h =>
          hfront (bytes_prefix_iff.1 (hbytes ▸ h))
        have hskip : offsetOf? (bytes (a :: needle)) (y ++ bytes s) =
            (offsetOf? (bytes (a :: needle)) (bytes s)).map (· + y.length) := by
          rw [bytes_cons, ha, List.cons_append]
          exact offsetOf?_append fun hb => hinside b hb hfirst
        have hsize : c.utf8Size = y.length + 1 := by
          rw [← String.length_utf8EncodeChar, hc, List.length_cons]
        rw [hbytes, offsetOf?, if_neg hnot, hskip, ih, cut?_cons_of_not_prefix hfront, Option.map_map,
          Option.map_map, Option.map_map]
        refine congrArg (fun f => (cut? (a :: needle) s).map f) (funext fun (p, _) => ?_)
        show byteLength p + y.length + 1 = c.utf8Size + byteLength p
        omega

end AndroidFonts.Text
